import Clausal.Input
import Mathlib.Tactic.SplitIfs

/-! # Encodings of characters

The decoder takes as many bytes as the first one announces and asks what they encode.  It accepts
nothing but UTF-8: what `char?` makes of as many bytes as announced is the character whose encoding
they are, and every encoding begins with a byte that announces its length.  Overlong forms,
surrogates and code points beyond the last one are out, since no character is encoded so.
-/

namespace Clausal.Text.Utf8

variable {a b d e lead : UInt8} {c : Char}

/-! ## Code points -/

theorem scalar?_eq_some_iff {code : Nat} {c : Char} : scalar? code = some c ↔ code = c.toNat := by
  by_cases h : code.isValidChar
  · rw [scalar?, dif_pos h]
    constructor
    · intro hc
      obtain rfl := Option.some.inj hc
      rfl
    · intro hc
      subst hc
      rfl
  · rw [scalar?, dif_neg h]
    constructor
    · intro hc
      cases hc
    · intro hc
      subst hc
      exact absurd c.valid h

theorem scalarFrom?_eq_some_iff {least code : Nat} {c : Char} :
    scalarFrom? least code = some c ↔ least ≤ code ∧ code = c.toNat := by
  unfold scalarFrom?
  split
  case isTrue h => simp; omega
  case isFalse h => rw [scalar?_eq_some_iff]; omega

theorem continuation?_eq_some_iff {byte : UInt8} {x : Nat} :
    continuation? byte = some x ↔ byte.toNat = 0x80 + x ∧ x < 0x40 := by
  have hlt := byte.toNat_lt
  simp only [continuation?, Bool.and_eq_true, decide_eq_true_eq, UInt8.le_iff_toNat_le,
    UInt8.lt_iff_toNat_lt, UInt8.reduceToNat]
  split <;> simp <;> omega

/-! ## Widths -/

theorem width?_eq (lead : UInt8) : width? lead =
    if lead.toNat < 0x80 then some 1 else if lead.toNat < 0xC0 then none
    else if lead.toNat < 0xE0 then some 2 else if lead.toNat < 0xF0 then some 3
    else if lead.toNat < 0xF8 then some 4 else none := by
  simp only [width?, UInt8.lt_iff_toNat_lt, UInt8.reduceToNat]

theorem width?_eq_one : width? a = some 1 ↔ a.toNat < 0x80 := by
  rw [width?_eq]
  split_ifs <;> simp <;> omega

theorem width?_eq_two : width? a = some 2 ↔ 0xC0 ≤ a.toNat ∧ a.toNat < 0xE0 := by
  rw [width?_eq]
  split_ifs <;> simp <;> omega

theorem width?_eq_three : width? a = some 3 ↔ 0xE0 ≤ a.toNat ∧ a.toNat < 0xF0 := by
  rw [width?_eq]
  split_ifs <;> simp <;> omega

theorem width?_eq_four : width? a = some 4 ↔ 0xF0 ≤ a.toNat ∧ a.toNat < 0xF8 := by
  rw [width?_eq]
  split_ifs <;> simp <;> omega

theorem width?_le {w : Nat} (h : width? a = some w) : 1 ≤ w ∧ w ≤ 4 := by
  rw [width?_eq] at h
  split_ifs at h <;> cases h <;> omega

/-! ## Encodings of each length

Which bytes encode a character, and which code points take that many. -/

theorem eq_ofNat_iff {n : Nat} (h : n < 256) : a = UInt8.ofNat n ↔ a.toNat = n := by
  rw [← UInt8.toNat_inj, UInt8.toNat_ofNat', Nat.mod_eq_of_lt h]

theorem toNat_lt (c : Char) : c.toNat < 0x110000 := by
  have hvalid : c.toNat < 0xD800 ∨ 0xDFFF < c.toNat ∧ c.toNat < 0x110000 := c.valid
  omega

theorem eq_encode_one : [a] = String.utf8EncodeChar c ↔ c.toNat < 0x80 ∧ a.toNat = c.toNat := by
  have hval : c.val.toNat = c.toNat := rfl
  simp only [String.utf8EncodeChar, hval]
  split_ifs with hone htwo hthree <;>
    simp only [List.cons.injEq, reduceCtorEq, and_false, and_true, false_iff]
  · rw [eq_ofNat_iff (by omega)]
    omega
  all_goals omega

theorem eq_encode_two : [a, b] = String.utf8EncodeChar c ↔
    (0x80 ≤ c.toNat ∧ c.toNat < 0x800) ∧ a.toNat = 0xC0 + c.toNat / 0x40 ∧
      b.toNat = 0x80 + c.toNat % 0x40 := by
  have hval : c.val.toNat = c.toNat := rfl
  simp only [String.utf8EncodeChar, hval]
  split_ifs with hone htwo hthree <;>
    simp only [List.cons.injEq, reduceCtorEq, and_false, and_true, false_iff]
  · omega
  · rw [eq_ofNat_iff (by omega), eq_ofNat_iff (by omega)]
    omega
  all_goals omega

theorem eq_encode_three : [a, b, d] = String.utf8EncodeChar c ↔
    (0x800 ≤ c.toNat ∧ c.toNat < 0x10000) ∧ a.toNat = 0xE0 + c.toNat / 0x1000 ∧
      b.toNat = 0x80 + c.toNat / 0x40 % 0x40 ∧ d.toNat = 0x80 + c.toNat % 0x40 := by
  have hval : c.val.toNat = c.toNat := rfl
  simp only [String.utf8EncodeChar, hval]
  split_ifs with hone htwo hthree <;>
    simp only [List.cons.injEq, reduceCtorEq, and_false, and_true, false_iff]
  · omega
  · omega
  · rw [eq_ofNat_iff (by omega), eq_ofNat_iff (by omega), eq_ofNat_iff (by omega)]
    omega
  · omega

theorem eq_encode_four : [a, b, d, e] = String.utf8EncodeChar c ↔
    0x10000 ≤ c.toNat ∧ a.toNat = 0xF0 + c.toNat / 0x40000 ∧
      b.toNat = 0x80 + c.toNat / 0x1000 % 0x40 ∧ d.toNat = 0x80 + c.toNat / 0x40 % 0x40 ∧
      e.toNat = 0x80 + c.toNat % 0x40 := by
  have hlt := toNat_lt c
  have hval : c.val.toNat = c.toNat := rfl
  simp only [String.utf8EncodeChar, hval]
  split_ifs with hone htwo hthree <;>
    simp only [List.cons.injEq, reduceCtorEq, and_false, and_true, false_iff]
  · omega
  · omega
  · omega
  · rw [eq_ofNat_iff (by omega), eq_ofNat_iff (by omega), eq_ofNat_iff (by omega),
      eq_ofNat_iff (by omega)]
    omega

/-! ## Decoding -/

theorem char?_one (h : width? a = some 1) :
    char? [a] = some c ↔ [a] = String.utf8EncodeChar c := by
  have ha := width?_eq_one.1 h
  rw [char?, if_pos (UInt8.lt_iff_toNat_lt.2 ha), scalar?_eq_some_iff, eq_encode_one]
  omega

theorem char?_two (h : width? a = some 2) :
    char? [a, b] = some c ↔ [a, b] = String.utf8EncodeChar c := by
  have ha := width?_eq_two.1 h
  simp only [char?, Option.bind_eq_bind, Option.bind_eq_some_iff, continuation?_eq_some_iff,
    scalarFrom?_eq_some_iff, eq_encode_two]
  constructor
  · rintro ⟨x, hx, hcode⟩
    omega
  · intro hc
    exact ⟨c.toNat % 0x40, by omega, by omega⟩

theorem char?_three (h : width? a = some 3) :
    char? [a, b, d] = some c ↔ [a, b, d] = String.utf8EncodeChar c := by
  have ha := width?_eq_three.1 h
  simp only [char?, Option.bind_eq_bind, Option.bind_eq_some_iff, continuation?_eq_some_iff,
    scalarFrom?_eq_some_iff, eq_encode_three]
  constructor
  · rintro ⟨x, hx, y, hy, hcode⟩
    omega
  · intro hc
    exact ⟨c.toNat / 0x40 % 0x40, by omega, c.toNat % 0x40, by omega, by omega⟩

theorem char?_four (h : width? a = some 4) :
    char? [a, b, d, e] = some c ↔ [a, b, d, e] = String.utf8EncodeChar c := by
  have ha := width?_eq_four.1 h
  have hlt := toNat_lt c
  simp only [char?, Option.bind_eq_bind, Option.bind_eq_some_iff, continuation?_eq_some_iff,
    scalarFrom?_eq_some_iff, eq_encode_four]
  constructor
  · rintro ⟨x, hx, y, hy, z, hz, hcode⟩
    omega
  · intro hc
    exact ⟨c.toNat / 0x1000 % 0x40, by omega, c.toNat / 0x40 % 0x40, by omega, c.toNat % 0x40,
      by omega, by omega⟩

/-- As many bytes as the first one announces encode the character that is made of them, and no
other bytes do. -/
theorem char?_eq_some_iff {more : List UInt8}
    (h : width? lead = some (more.length + 1)) :
    char? (lead :: more) = some c ↔ lead :: more = String.utf8EncodeChar c := by
  have hle := (width?_le h).2
  match more, h with
  | [], h => exact char?_one h
  | [_], h => exact char?_two h
  | [_, _], h => exact char?_three h
  | [_, _, _], h => exact char?_four h
  | _ :: _ :: _ :: _ :: more, _ =>
    simp only [List.length_cons] at hle
    omega

/-- The first byte of an encoding announces its length. -/
theorem encode_eq_cons (c : Char) : ∃ lead more,
    String.utf8EncodeChar c = lead :: more ∧ width? lead = some (more.length + 1) := by
  have hlt := toNat_lt c
  match he : String.utf8EncodeChar c with
  | [] => simp at he
  | [a] =>
    have hone := eq_encode_one.1 he.symm
    exact ⟨a, [], rfl, width?_eq_one.2 (by omega)⟩
  | [a, b] =>
    have htwo := eq_encode_two.1 he.symm
    exact ⟨a, [b], rfl, width?_eq_two.2 (by omega)⟩
  | [a, b, d] =>
    have hthree := eq_encode_three.1 he.symm
    exact ⟨a, [b, d], rfl, width?_eq_three.2 (by omega)⟩
  | [a, b, d, e] =>
    have hfour := eq_encode_four.1 he.symm
    exact ⟨a, [b, d, e], rfl, width?_eq_four.2 (by omega)⟩
  | _ :: _ :: _ :: _ :: _ :: more =>
    have hle := c.utf8Size_le_four
    rw [← String.length_utf8EncodeChar, he] at hle
    simp only [List.length_cons] at hle
    omega

end Clausal.Text.Utf8

import Clausal.Proofs.Syntax.Words
import Mathlib.Data.List.TakeWhile

/-! # Doubles as they are written

A double is written as a sign and a decimal with a fraction (`Text.FractionForm`), unless it is infinite or
no number (`Binary64.written_cases`).  There are digits before and after the point, since the shortest
decimal that names a double has digits (`Binary64.wellFormed_shortest`).

A lexer takes such a decimal for one number if no letter or digit comes next (`Lexer.cuts_fraction`).
-/

namespace Clausal

namespace Text

/-- The exponent of a decimal, or nothing. -/
inductive ExponentForm : List Char → Prop
  /-- No exponent. -/
  | none : ExponentForm []
  /-- The digits of the exponent after a letter, perhaps with a sign. -/
  | some {sign ds : List Char} (hsign : sign = [] ∨ sign = ['-']) (hds : ds.all isDigit = true)
    (hne : ds ≠ []) : ExponentForm ('e' :: (sign ++ ds))

/-- A decimal with a fraction. -/
inductive FractionForm : List Char → Prop
  /-- Digits on both sides of the point. -/
  | intro {whole fraction exponent : List Char} (hwhole : whole.all isDigit = true) (hne : whole ≠ [])
    (hfraction : fraction.all isDigit = true) (hne' : fraction ≠ []) (hexponent : ExponentForm exponent) :
    FractionForm (whole ++ '.' :: (fraction ++ exponent))

end Text

namespace Binary64

open Text (isDigit FractionForm ExponentForm)

variable {x : Binary64} {c : Cell} {d : Decimal}

/-! ## Digits -/

/-- There are digits, and nothing else. -/
structure Decimal.WellFormed (d : Decimal) : Prop where
  /-- All are digits. -/
  all_isDigit : d.digits.all Text.isDigit = true
  /-- There is one. -/
  ne_nil : d.digits ≠ []

/-- A number other than zero has a digit other than zero. -/
theorem exists_digit_ne_zero {n : Nat} (h : n ≠ 0) : ∃ e ∈ Nat.toDigits 10 n, e ≠ '0' := by
  induction n using Nat.strongRecOn with
  | ind n ih =>
  by_cases hn : n < 10
  · have hchars : ∀ k < 10, k ≠ 0 → Nat.digitChar k ≠ '0' := by decide
    refine ⟨Nat.digitChar n, ?_, hchars n hn h⟩
    rw [Nat.toDigits_of_lt_base hn]
    exact List.mem_singleton_self _
  · obtain ⟨e, he, hne⟩ := ih (n / 10) (by omega) (by omega)
    refine ⟨e, ?_, hne⟩
    rw [Nat.toDigits_of_base_le (by decide) (Nat.le_of_not_lt hn)]
    exact List.mem_append_left _ he

theorem Decimal.wellFormed_ofCoefficient {n : Nat} (h : n ≠ 0) (e : Int) :
    (Decimal.ofCoefficient n e).WellFormed := by
  -- The zeros at the end are those in front of the digits from the last one on.
  have hdrop : ∀ ds : List Char, ds.drop (ds.takeWhile (· = '0')).length = ds.dropWhile (· = '0') := by
    intro ds
    have hleft : (ds.takeWhile (· = '0') ++ ds.dropWhile (· = '0')).drop
        (ds.takeWhile (· = '0')).length = ds.dropWhile (· = '0') := List.drop_left
    rwa [List.takeWhile_append_dropWhile] at hleft
  have hdigits : (Decimal.ofCoefficient n e).digits =
      ((Nat.toDigits 10 n).reverse.dropWhile (· = '0')).reverse :=
    congrArg List.reverse (hdrop _)
  constructor
  · have hall := Lexer.all_isDigit_toDigits n
    rw [← List.all_reverse] at hall
    rw [hdigits, List.all_reverse]
    exact Text.all_sublist (List.dropWhile_sublist _) hall
  · obtain ⟨d, hd, hne⟩ := exists_digit_ne_zero h
    rw [hdigits, ne_eq, List.reverse_eq_nil_iff, List.dropWhile_eq_nil_iff]
    intro hall
    exact hne (of_decide_eq_true (hall d (List.mem_reverse.mpr hd)))

theorem parts_ne_zero (h : x.magnitude ≠ 0) : x.parts.1 ≠ 0 := by
  rw [parts]
  split
  · rename_i hexponent
    have hlt := (Nat.div_eq_zero_iff.mp hexponent).resolve_left (by decide)
    rwa [Nat.mod_eq_of_lt hlt]
  · exact Nat.ne_of_gt (Nat.add_pos_left (by decide) _)

theorem power_pos {base : Nat} (h : 0 < base) (e : Int) : 0 < power base e := Nat.pow_pos h

/-- Only a point other than zero names a double other than zero. -/
theorem Cell.ne_zero_of_gridPoint? {e : Int} {n : Nat} (h : 0 < c.lower) (hn : c.gridPoint? e = some n) :
    n ≠ 0 := by
  have hscale : 0 < (c.onGrid e).1.lower := Nat.mul_pos h (power_pos (by decide) _)
  have hzero : (c.onGrid e).1.contains (0 * (c.onGrid e).2) = false := by
    rw [Nat.zero_mul, contains]
    split
    · rw [Bool.and_eq_false_iff, decide_eq_false_iff_not]
      exact .inl (Nat.not_le_of_gt hscale)
    · rw [Bool.and_eq_false_iff, decide_eq_false_iff_not]
      exact .inl (Nat.not_lt_zero _)
  have hpositive : ∀ point, (c.onGrid e).1.contains (point * (c.onGrid e).2) = true → point ≠ 0 := by
    rintro point hcontains rfl
    rw [hzero] at hcontains
    cases hcontains
  simp only [gridPoint?] at hn
  split at hn
  · cases hn
  · rename_i hlow _
    exact Option.some.inj hn ▸ hpositive _ hlow
  · exact Option.some.inj hn ▸ Nat.succ_ne_zero _
  · rename_i hlow _
    rw [Option.some.injEq] at hn
    split at hn
    · exact hn ▸ hpositive _ hlow
    · exact hn ▸ Nat.succ_ne_zero _

theorem wellFormed_shortest (x : Binary64) : x.shortest.WellFormed := by
  have hgo : ∀ (c : Cell) (top : Int) (n : Nat) (e : Int), 0 < c.lower → 0 < c.value →
      (shortest.go c top n e).WellFormed := by
    intro c top n
    induction n with
    | zero =>
      intro e _ hvalue
      exact Decimal.wellFormed_ofCoefficient
        (Nat.ne_of_gt (Nat.mul_pos hvalue (power_pos (by decide) _))) e
    | succ n ih =>
      intro e hlower hvalue
      rw [shortest.go]
      split
      · rename_i hpoint
        exact Decimal.wellFormed_ofCoefficient (c.ne_zero_of_gridPoint? hlower hpoint) e
      · exact ih _ hlower hvalue
  rw [shortest]
  split
  · exact ⟨by decide, by decide⟩
  · rename_i hmagnitude
    have hparts := parts_ne_zero hmagnitude
    refine hgo _ _ _ _ (Nat.mul_pos ?_ (power_pos (by decide) _))
      (Nat.mul_pos ?_ (power_pos (by decide) _))
    · show 0 < 4 * x.parts.1 - (if (x.parts.1 = leadingBit && x.parts.2 ≠ -1074) = true then 1 else 2)
      split <;> omega
    · show 0 < 4 * x.parts.1
      omega

/-! ## Texts -/

theorem all_isDigit_zeros (k : Nat) : (List.replicate k '0').all isDigit = true :=
  List.all_eq_true.mpr fun _ hd => (List.eq_of_mem_replicate hd) ▸ rfl

/-- In positional notation there are digits before the point, and only digits after it. -/
theorem Decimal.WellFormed.positional (h : d.WellFormed) :
    d.positional.1.toList.all isDigit = true ∧ d.positional.1.toList ≠ [] ∧
      d.positional.2.toList.all isDigit = true := by
  rw [Decimal.positional]
  split
  · rw [String.toList_ofList, List.all_append, h.all_isDigit, all_isDigit_zeros]
    exact ⟨rfl, List.append_ne_nil_of_left_ne_nil h.ne_nil _, rfl⟩
  · dsimp only
    generalize hpadded : List.replicate ((-d.exponent).toNat + 1 - d.digits.length) '0' ++ d.digits =
      padded
    have hall : padded.all isDigit = true := by
      rw [← hpadded, List.all_append, all_isDigit_zeros, h.all_isDigit]
      rfl
    have hlength : (-d.exponent).toNat < padded.length := by
      rw [← hpadded, List.length_append, List.length_replicate]
      omega
    rw [String.toList_ofList, String.toList_ofList]
    refine ⟨?_, ?_, ?_⟩
    · exact Text.all_sublist (List.take_sublist _ _) hall
    · rw [ne_eq, List.take_eq_nil_iff, ← List.length_eq_zero_iff]
      omega
    · exact Text.all_sublist (List.drop_sublist _ _) hall

/-- A decimal is written with a fraction. -/
theorem Decimal.WellFormed.fractionForm (h : d.WellFormed) : FractionForm
    (if -4 ≤ d.leading && d.leading < 16 then
      let (whole, fraction) := d.positional
      whole ++ "." ++ if fraction.isEmpty then "0" else fraction
    else d.scientific).toList := by
  split
  · obtain ⟨hwhole, hne, hfraction⟩ := h.positional
    generalize d.positional = texts at hwhole hne hfraction
    obtain ⟨whole, fraction⟩ := texts
    have hform : ∀ ds : List Char, ds.all isDigit = true → ds ≠ [] →
        FractionForm (whole.toList ++ '.' :: (ds ++ [])) :=
      fun ds hds hne' => .intro hwhole hne hds hne' .none
    dsimp only
    rw [String.toList_append, String.toList_append, List.append_assoc]
    by_cases hempty : fraction.isEmpty = true
    · rw [if_pos hempty]
      exact hform ['0'] (by decide) (by decide)
    · have hne' : fraction.toList ≠ [] := by
        rwa [ne_eq, String.toList_eq_nil_iff, ← String.isEmpty_iff]
      rw [if_neg hempty]
      have hfraction := hform fraction.toList hfraction hne'
      rwa [List.append_nil] at hfraction
  · have hleading := Lexer.toList_toString_int d.leading
    generalize hsign : (if d.leading < 0 then ['-'] else []) = sign at hleading
    have hsign : sign = [] ∨ sign = ['-'] := by
      rw [← hsign]
      split
      · exact .inr rfl
      · exact .inl rfl
    have hexponent : ExponentForm ('e' :: (sign ++ Nat.toDigits 10 d.leading.natAbs)) :=
      .some hsign (Lexer.all_isDigit_toDigits _) Nat.toDigits_ne_nil
    have hwhole : (d.digits.take 1).all isDigit = true :=
      Text.all_sublist (List.take_sublist _ _) h.all_isDigit
    have hne : d.digits.take 1 ≠ [] := by
      rw [ne_eq, List.take_eq_nil_iff]
      exact not_or.mpr ⟨by decide, h.ne_nil⟩
    have hfraction : (if d.digits.tail.isEmpty then ['0'] else d.digits.tail).all isDigit = true ∧
        (if d.digits.tail.isEmpty then ['0'] else d.digits.tail) ≠ [] := by
      split
      · decide
      · rename_i hempty
        rw [List.isEmpty_iff] at hempty
        exact ⟨Text.all_sublist (List.tail_sublist _) h.all_isDigit, hempty⟩
    have hform := FractionForm.intro hwhole hne hfraction.1 hfraction.2 hexponent
    rw [Decimal.scientific]
    simp only [String.toList_append, String.toList_ofList, hleading, List.append_assoc]
    exact hform

/-- **A double is written as a decimal with a fraction**, unless it is infinite or no number. -/
theorem written_cases (x : Binary64) : x.written = "NaN" ∨ ∃ sign body,
    (sign = [] ∨ sign = ['-']) ∧ (body = ['i', 'n', 'f'] ∨ FractionForm body) ∧
      x.written.toList = sign ++ body := by
  rw [written, textWith]
  split
  · exact .inl rfl
  · have hsign : ∃ sign, (sign = [] ∨ sign = ['-']) ∧
        (if x.isNegative then "-" else "").toList = sign := by
      split
      · exact ⟨_, .inr rfl, rfl⟩
      · exact ⟨_, .inl rfl, rfl⟩
    obtain ⟨sign, hsign, htext⟩ := hsign
    rw [String.toList_append, htext]
    refine .inr ⟨sign, _, hsign, ?_, rfl⟩
    split
    · exact .inl rfl
    · exact .inr (wellFormed_shortest x).fractionForm

end Binary64

namespace Lexer

open Text (isDigit FractionForm ExponentForm)

variable {c d : Char} {cs ds ws : List Char} {rest : Input} {p : Position} {b : Bool}

/-! ## Decimals read back -/

/-- Without a letter next there is no exponent. -/
theorem exponentPart_eq_zero (hrest : rest.Stops Text.isAlnum) (p : Position) (b : Bool) :
    exponentPart ⟨rest, p, b⟩ = .ok 0 ⟨rest, p, b⟩ := by
  rcases rest with _ | ⟨d | fault, rest⟩
  · rfl
  · have hd : ∀ e, Text.isAlnum e = true → d ≠ e := fun _ he => (Text.ne_of_class he hrest).symm
    have hfilter : (some d).filter (fun c => c = 'e' || c = 'E') = none := by
      simp [hd 'e' (by decide), hd 'E' (by decide)]
    have hpeek : peek? ⟨.char d :: rest, p, b⟩ = .ok (some d) ⟨.char d :: rest, p, b⟩ := rfl
    rw [exponentPart, bind_eq_of_ok hpeek, hfilter]
    rfl
  · exact hrest.elim

/-- Whether a sign comes before digits shows in the first character. -/
theorem exists_exponentSign {sign : List Char} (ds : List Char) (hsign : sign = [] ∨ sign = ['-'])
    (hd : isDigit d = true) : ∃ mark : Option Char, ∀ (rest : Input) (p : Position) (b : Bool),
      ∃ next p', peek? ⟨(sign ++ d :: ds).map .char ++ rest, p, b⟩ =
        .ok next ⟨(sign ++ d :: ds).map .char ++ rest, p, b⟩ ∧
      next.filter (fun c => c = '-' || c = '+') = mark ∧
      mark.forM skip ⟨(sign ++ d :: ds).map .char ++ rest, p, b⟩ =
        .ok () ⟨(d :: ds).map .char ++ rest, p', b⟩ := by
  obtain rfl | rfl := hsign
  · refine ⟨none, fun rest p b => ⟨some d, p, rfl, ?_, rfl⟩⟩
    have hdigits : ∀ e ∈ Text.digits, (decide (e = '-') || decide (e = '+')) = false :=
      List.all_iff_forall_prop.mp (by decide)
    rw [Option.filter_some, hdigits d (Text.mem_of_isDigit hd), if_neg Bool.false_ne_true]
  · exact ⟨some '-', fun rest p b => ⟨some '-', p.next '-', rfl, rfl, rfl⟩⟩

/-- The digits of an exponent are read to the last one. -/
theorem exists_exponentPart {exponent : List Char} (h : ExponentForm exponent) :
    ∃ n, ∀ rest : Input, rest.Stops Text.isAlnum → ∀ p b, ∃ p',
      exponentPart ⟨exponent.map .char ++ rest, p, b⟩ = .ok n ⟨rest, p', b⟩ := by
  cases h with
  | none => exact ⟨0, fun rest hrest p b => ⟨p, exponentPart_eq_zero hrest p b⟩⟩
  | @some sign ds hsign hds hne =>
    obtain ⟨d, ds, rfl⟩ := List.exists_cons_of_ne_nil hne
    have hd : isDigit d = true := by
      rw [List.all_cons, Bool.and_eq_true] at hds
      exact hds.1
    obtain ⟨mark, hmark⟩ := exists_exponentSign ds hsign hd
    have hletter : (some 'e').filter (fun c => c = 'e' || c = 'E') = some 'e' := rfl
    have hany : (some d).any isDigit = true := hd
    refine ⟨if mark = some '-' then -(Text.digitsValue 10 (d :: ds) : Int)
      else Text.digitsValue 10 (d :: ds), fun rest hrest p b => ?_⟩
    obtain ⟨next, p₁, hpeek₁, hfilter, hskip₁⟩ := hmark rest (p.next 'e') b
    have htake := takeWhile_eq hds (hrest.mono fun _ => Text.isAlnum_of_isDigit) p₁ b
    have hpeek₀ : peek? ⟨('e' :: (sign ++ d :: ds)).map .char ++ rest, p, b⟩ =
        .ok (some 'e') ⟨('e' :: (sign ++ d :: ds)).map .char ++ rest, p, b⟩ := rfl
    have hskip₀ : skip 'e' ⟨('e' :: (sign ++ d :: ds)).map .char ++ rest, p, b⟩ =
        .ok () ⟨(sign ++ d :: ds).map .char ++ rest, p.next 'e', b⟩ := rfl
    have hpeek₂ : peek? ⟨(d :: ds).map .char ++ rest, p₁, b⟩ =
        .ok (some d) ⟨(d :: ds).map .char ++ rest, p₁, b⟩ := rfl
    refine ⟨p₁.after (d :: ds), ?_⟩
    rw [exponentPart, bind_eq_of_ok hpeek₀, hletter]
    dsimp only
    rw [bind_eq_of_ok hskip₀, bind_eq_of_ok hpeek₁, hfilter, bind_eq_of_ok hskip₁,
      bind_eq_of_ok hpeek₂, hany, if_pos rfl, bind_eq_of_ok htake]
    rfl

/-- A decimal with a fraction is one number, if no letter or digit comes next. -/
theorem cuts_fraction (h : FractionForm ws) : ∃ l, ∀ rest : Input, rest.Stops Text.isAlnum →
    Cuts (ws.map .char ++ rest) (.literal l) rest := by
  cases h with
  | @intro whole fraction exponent hwhole hne hfraction hne' hexponent =>
  obtain ⟨c, cs, rfl⟩ := List.exists_cons_of_ne_nil hne
  obtain ⟨d, ds, rfl⟩ := List.exists_cons_of_ne_nil hne'
  obtain ⟨n, hexponentPart⟩ := exists_exponentPart hexponent
  rw [List.all_cons, Bool.and_eq_true] at hwhole
  have hdigit : isDigit d = true := by
    rw [List.all_cons, Bool.and_eq_true] at hfraction
    exact hfraction.1
  have hany : (some d).any isDigit = true := hdigit
  refine ⟨.float (.ofDecimal (Text.digitsValue 10 (c :: cs ++ d :: ds)) (n - (d :: ds).length)), ?_⟩
  intro rest hrest
  -- Neither an exponent nor what comes after it begins with a digit.
  have hstops : Input.Stops isDigit (exponent.map .char ++ rest) := by
    cases hexponent with
    | none => exact hrest.mono fun _ => Text.isAlnum_of_isDigit
    | some => exact (by decide : isDigit 'e' = false)
  have hinput : (c :: cs ++ '.' :: (d :: ds ++ exponent)).map Item.char ++ rest =
      .char c :: (cs.map .char ++ .char '.' :: ((d :: ds).map .char ++ (exponent.map .char ++ rest))) := by
    simp
  rw [hinput]
  refine cuts_decimal hwhole.1 ?_ ?_
  · rintro -
    cases cs with
    | nil => exact (by decide : (decide ('.' = '\x27') || (radix? '.').isSome) = false)
    | cons e cs =>
      rw [List.all_cons, Bool.and_eq_true] at hwhole
      exact not_mark_of_isDigit hwhole.2.1
  · intro p
    have hpoint : Input.Stops isDigit
        (.char '.' :: ((d :: ds).map .char ++ (exponent.map .char ++ rest))) :=
      (by decide : isDigit '.' = false)
    have htake := takeWhile_eq hwhole.2 hpoint p false
    have hskip : skipIf '.' ⟨.char '.' :: ((d :: ds).map .char ++ (exponent.map .char ++ rest)),
        p.after cs, false⟩ = .ok true ⟨(d :: ds).map .char ++ (exponent.map .char ++ rest),
          (p.after cs).next '.', false⟩ := rfl
    have hpeek : peek? ⟨(d :: ds).map .char ++ (exponent.map .char ++ rest), (p.after cs).next '.',
        false⟩ = .ok (some d) ⟨(d :: ds).map .char ++ (exponent.map .char ++ rest),
          (p.after cs).next '.', false⟩ := rfl
    have htake' := takeWhile_eq hfraction hstops ((p.after cs).next '.') false
    obtain ⟨p', hread⟩ := hexponentPart rest hrest (((p.after cs).next '.').after (d :: ds)) false
    refine ⟨p', ?_⟩
    rw [decimalToken, bind_eq_of_ok htake]
    dsimp only
    rw [bind_eq_of_ok hskip, if_pos rfl, bind_eq_of_ok hpeek, hany, if_pos rfl, bind_eq_of_ok htake',
      bind_eq_of_ok hread]
    rfl

end Lexer

end Clausal

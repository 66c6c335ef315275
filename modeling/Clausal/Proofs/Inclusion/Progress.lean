import Clausal.Proofs.Actions
import Clausal.Proofs.Inclusion.Lexing

/-! # Tokens take characters

No token leaves more to read than there was, although numbers and points put back what turned out not
to belong to them, and a full stop leaves less (`ends_token`).  So a text has no more terms than
characters.
-/

namespace Clausal

namespace Lexer

variable {α β : Type} {n k : Nat} {lx : Lexer}

/-- What is left after the action succeeds is at most `n` more than before. -/
def Grows (n : Nat) (m : Lexing α) : Prop :=
  ∀ lx a lx', m lx = .ok a lx' → lx'.input.length ≤ lx.input.length + n

/-- The same, if there is something left. -/
def GrowsAhead (n : Nat) (m : Lexing α) : Prop :=
  ∀ lx a lx', lx.input ≠ [] → m lx = .ok a lx' → lx'.input.length ≤ lx.input.length + n

theorem Keeps.grows {m : Lexing α} (h : Keeps m) (n : Nat) : Grows n m := fun lx a lx' hm =>
  Nat.le_trans (h lx a lx' hm) (Nat.le_add_right _ _)

theorem Grows.ahead {m : Lexing α} (h : Grows n m) : GrowsAhead n m := fun lx a lx' _ => h lx a lx'

theorem Grows.keeps {m : Lexing α} (h : Grows 0 m) : Keeps m := h

theorem Keeps.bind_grows {m : Lexing α} {f : α → Lexing β} (hm : Keeps m)
    (hf : ∀ a, Grows n (f a)) : Grows n (m >>= f) := by
  intro lx b lx'' h
  obtain ⟨a, lx', h₁, h₂⟩ := bind_eq_ok h
  have hle := hm lx a lx' h₁
  have hle' := hf a lx' b lx'' h₂
  omega

theorem grows_pure (a : α) : Grows n (pure a) := (keeps_pure a).grows n

/-- Putting a character back, after which `k` more may be. -/
theorem grows_putBack_bind (c : Char) {f : Unit → Lexing α} (hf : Grows k (f ())) :
    Grows (k + 1) (putBack c >>= f) := by
  intro lx a lx' h
  have hle := hf { lx with input := .char c :: lx.input } a lx' h
  rw [List.length_cons] at hle
  omega

/-- Passing a character, which makes room for one more. -/
theorem growsAhead_skip_bind (c : Char) {f : Unit → Lexing α} (hf : Grows (n + 1) (f ())) :
    GrowsAhead n (skip c >>= f) := by
  intro lx a lx' hne h
  have hle := hf { lx with input := lx.input.tail, position := lx.position.next c } a lx' h
  have hpos := List.length_pos_iff.mpr hne
  rw [List.length_tail] at hle
  omega

/-- Looking at the next character, if there is one. -/
theorem grows_peek?_bind {f : Option Char → Lexing α} (hsome : ∀ c, GrowsAhead n (f (some c)))
    (hnone : Grows n (f none)) : Grows n (peek? >>= f) := by
  intro ⟨input, position, layoutSeen⟩ a lx' h
  rcases input with _ | ⟨c | fault, rest⟩
  · exact hnone _ a lx' h
  · exact hsome c _ a lx' (List.cons_ne_nil _ _) h
  · cases h

theorem keeps_take : Keeps take := fun lx a lx' h => Nat.le_of_lt (shortens_take lx a lx' h)

theorem keeps_quotedParts (quote : Char) (before : List Char) : Keeps (quotedParts quote before) := by
  intro lx
  fun_induction quotedParts quote before lx with
  | case1 before lx lx₁ hpart =>
    intro a lx' h
    cases h
    exact Nat.le_of_lt (shortens_quotedPart quote _ _ _ hpart)
  | case2 before lx lx₁ hpart ih =>
    exact fun a lx' h =>
      Nat.le_trans (ih a lx' h) (Nat.le_of_lt (shortens_quotedPart quote _ _ _ hpart))
  | case3 before lx c lx₁ hpart ih =>
    exact fun a lx' h =>
      Nat.le_trans (ih a lx' h) (Nat.le_of_lt (shortens_quotedPart quote _ _ _ hpart))
  | case4 before lx e lx₁ hpart =>
    intro a lx' h
    cases h

theorem Keeps.map {m : Lexing α} (h : Keeps m) (f : α → β) : Keeps (f <$> m) := by
  intro lx b lx' hm
  rcases hresult : m lx with ⟨a, lx₁⟩ | ⟨e, lx₁⟩
  · simp only [Functor.map, EStateM.map, hresult] at hm
    cases hm
    exact h lx a lx' hresult
  · simp only [Functor.map, EStateM.map, hresult] at hm
    cases hm

theorem keeps_quotedText (quote : Char) : Keeps (quotedText quote) :=
  (keeps_skip quote).bind fun _ => (keeps_quotedParts quote []).map _

/-! ## Numbers -/

theorem keeps_charCodeToken : Keeps charCodeToken := by
  refine (keeps_skip _).bind fun _ => keeps_take.bind fun c => ?_
  dsimp only
  split
  · exact keeps_lookahead.bind fun d => (keeps_escape d).bind fun _ => keeps_pure _
  · split
    · exact (keeps_skipIf _).bind fun _ => keeps_pure _
    · exact keeps_pure _

/-- A letter that announces no digits is put back. -/
theorem growsAhead_radixToken (letter : Char) (radix : Nat) :
    GrowsAhead 0 (radixToken letter radix) := by
  refine growsAhead_skip_bind letter (keeps_peek?.bind_grows fun c => ?_)
  split
  · exact ((keeps_takeWhile _).map _).grows 1
  · exact grows_putBack_bind letter (grows_pure _)

/-- The sign and the letter of an exponent without digits are put back. -/
theorem keeps_exponentPart : Keeps exponentPart := by
  have hdigits : ∀ (e : Char) (sign : Option Char), Grows (sign.toList.length + 1) (do
      if (← peek?).any Text.isDigit then
        let n := Text.digitsValue 10 (← takeWhile Text.isDigit)
        pure (if sign = some '-' then -n else n : Int)
      else
        sign.forM putBack
        putBack e
        pure 0) := by
    refine fun e sign => keeps_peek?.bind_grows fun c => ?_
    split
    · exact ((keeps_takeWhile _).bind fun _ => keeps_pure _).grows _
    · cases sign with
      | none => exact fun lx => grows_putBack_bind (f := fun _ => pure 0) e (grows_pure _) lx
      | some d => exact grows_putBack_bind d (grows_putBack_bind e (grows_pure _))
  refine Grows.keeps (grows_peek?_bind (fun c => ?_) (grows_pure _))
  cases (some c).filter fun c => c = 'e' || c = 'E' with
  | none => exact (grows_pure _).ahead
  | some e =>
    refine growsAhead_skip_bind e (grows_peek?_bind (fun d => ?_) (hdigits e none))
    cases (some d).filter fun c => c = '-' || c = '+' with
    | none => exact (hdigits e none).ahead
    | some d' => exact growsAhead_skip_bind d' (hdigits e (some d'))

/-- A point without a digit after it is put back. -/
theorem keeps_decimalToken (first : Char) : Keeps (decimalToken first) := by
  have hfraction : ∀ whole : List Char, Grows 1 (do
      if (← peek?).any Text.isDigit then
        let fraction ← takeWhile Text.isDigit
        let exponent ← exponentPart
        let coefficient := Text.digitsValue 10 (whole ++ fraction)
        pure (.literal (.float (.ofDecimal coefficient (exponent - fraction.length))))
      else
        putBack '.'
        pure (integerToken 10 whole)) := by
    refine fun whole => keeps_peek?.bind_grows fun d => ?_
    split
    · exact ((keeps_takeWhile _).bind fun _ => keeps_exponentPart.bind fun _ =>
        keeps_pure _).grows 1
    · exact grows_putBack_bind '.' (grows_pure _)
  refine (keeps_takeWhile _).bind fun digits => ?_
  intro ⟨input, position, layoutSeen⟩ a lx' h
  rcases input with _ | ⟨c | fault, rest⟩
  · cases h
    exact Nat.le_refl _
  · by_cases hc : some c = some '.'
    · cases hc
      exact hfraction (first :: digits) ⟨rest, position.next '.', layoutSeen⟩ a lx' h
    · have hskip : skipIf '.' ⟨.char c :: rest, position, layoutSeen⟩ =
          .ok false ⟨.char c :: rest, position, layoutSeen⟩ := by
        show (if some c = some '.' then (do skip '.'; pure true) else pure false : Lexing Bool) _ = _
        rw [if_neg hc]
        rfl
      obtain ⟨b, lx₁, h₁, h₂⟩ := bind_eq_ok h
      rw [hskip] at h₁
      cases h₁
      cases h₂
      exact Nat.le_refl _
  · cases h

theorem growsAhead_numberToken (c : Char) : GrowsAhead 0 (numberToken c) := by
  have hdecimal := (keeps_decimalToken c).grows 1
  refine growsAhead_skip_bind c ?_
  by_cases hzero : c = '0'
  · simp only [if_pos hzero]
    refine grows_peek?_bind (fun d => ?_) hdecimal
    split
    · exact (keeps_charCodeToken.grows 1).ahead
    · split
      · exact fun lx a lx' hne h => Nat.le_trans (growsAhead_radixToken _ _ lx a lx' hne h) (by omega)
      · exact hdecimal.ahead
    · exact hdecimal.ahead
  · simp only [if_neg hzero]
    exact hdecimal

/-! ## Tokens -/

theorem keeps_nameToken (c : Char) : Keeps (nameToken c) := by
  unfold nameToken
  dsimp only
  split
  · exact (keeps_skip c).bind fun _ => ((keeps_takeWhile _).map _).bind fun _ => keeps_pure _
  · split
    · exact ((keeps_takeWhile _).map _).bind fun _ => keeps_pure _
    · split
      · exact (keeps_skip c).bind fun _ => keeps_pure _
      · split
        · exact (keeps_quotedText c).bind fun _ => keeps_pure _
        · exact (keeps_failHere _).bind fun _ => keeps_pure _

/-- Every token but the full stop. -/
def NotStop (m : Lexing Token) : Prop := ∀ lx, Ends (m lx) (fun t _ => t ≠ .stop) fun _ => True

theorem notStop_bind {m : Lexing α} {f : α → Lexing Token} (hf : ∀ a, NotStop (f a)) :
    NotStop (m >>= f) := by
  intro lx
  refine Ends.bind (Q := fun _ _ => True) ?_ fun a lx' _ => hf a lx'
  rcases m lx with ⟨a, lx'⟩ | ⟨e, lx'⟩ <;> trivial

theorem notStop_pure {t : Token} (h : t ≠ .stop) : NotStop (pure t) := fun _ => h

theorem notStop_map {m : Lexing α} {f : α → Token} (h : ∀ a, f a ≠ .stop) : NotStop (f <$> m) := by
  intro lx
  refine Ends.map ?_
  rcases m lx with ⟨a, lx'⟩ | ⟨e, lx'⟩
  · exact h a
  · trivial

theorem notStop_numberToken (c : Char) : NotStop (numberToken c) := by
  have hdecimal : NotStop (decimalToken c) := by
    refine notStop_bind fun digits => notStop_bind fun point => ?_
    split
    · refine notStop_bind fun d => ?_
      split
      · exact notStop_bind fun _ => notStop_bind fun _ => notStop_pure nofun
      · exact notStop_bind fun _ => notStop_pure nofun
    · exact notStop_pure nofun
  have hcode : NotStop charCodeToken := by
    refine notStop_bind fun _ => notStop_bind fun d => ?_
    dsimp only
    split
    · exact notStop_bind fun _ => notStop_bind fun _ => notStop_pure nofun
    · split
      · exact notStop_bind fun _ => notStop_pure nofun
      · exact notStop_pure nofun
  have hradix : ∀ letter radix, NotStop (radixToken letter radix) := by
    refine fun letter radix => notStop_bind fun _ => notStop_bind fun d => ?_
    split
    · exact notStop_map fun _ => nofun
    · exact notStop_bind fun _ => notStop_pure nofun
  refine notStop_bind fun _ => ?_
  by_cases hzero : c = '0'
  · simp only [if_pos hzero]
    refine notStop_bind fun mark => ?_
    split
    · exact hcode
    · split
      · exact hradix _ _
      · exact hdecimal
    · exact hdecimal
  · simp only [if_neg hzero]
    exact hdecimal

theorem notStop_nameToken (c : Char) : NotStop (nameToken c) := by
  have hname : ∀ name : String, NotStop (pure (.literal (.atom name))) := fun _ => notStop_pure nofun
  unfold nameToken
  dsimp only
  split
  · exact notStop_bind fun _ => notStop_bind hname
  · split
    · exact notStop_bind hname
    · split
      · exact notStop_bind fun _ => hname _
      · split
        · exact notStop_bind hname
        · exact notStop_bind hname

/-- How many characters the token takes at least. -/
def weight (t : Token) : Nat := if t = .stop then 1 else 0

theorem weight_of_ne {t : Token} (h : t ≠ .stop) : weight t = 0 := if_neg h

/-- A token that is no full stop may take no characters, but it gives none back. -/
theorem ends_of_growsAhead {m : Lexing Token} (hm : GrowsAhead 0 m) (hstop : NotStop m)
    (hne : lx.input ≠ []) :
    Ends (m lx) (fun t lx' => lx'.input.length + weight t ≤ lx.input.length) fun _ => True := by
  have hnot := hstop lx
  have hgrows := hm lx
  rcases hresult : m lx with ⟨t, lx'⟩ | ⟨e, lx'⟩
  · show lx'.input.length + weight t ≤ lx.input.length
    rw [weight_of_ne (hnot.of_ok hresult)]
    exact hgrows t lx' hne hresult
  · trivial

theorem ends_stopToken (hne : lx.input ≠ []) :
    Ends (stopToken lx) (fun t lx' => lx'.input.length + weight t ≤ lx.input.length)
      fun _ => True := by
  obtain ⟨input, position, layoutSeen⟩ := lx
  rcases input with _ | ⟨i, rest⟩
  · exact absurd rfl hne
  have hstop : ∀ position, Ends ((pure .stop : Lexing Token) ⟨rest, position, layoutSeen⟩)
      (fun t lx' => lx'.input.length + weight t ≤ (i :: rest).length) fun _ => True :=
    fun _ => Nat.le_refl _
  rcases rest with _ | ⟨c | fault, rest⟩
  · exact hstop _
  · show Ends ((if Text.isLayout c || c = '%' then pure .stop
      else do
        putBack '.'
        nameToken '.' : Lexing Token) ⟨.char c :: rest, position.next '.', layoutSeen⟩) _ _
    split
    · exact hstop _
    · have hname : GrowsAhead 0 (nameToken '.') := ((keeps_nameToken '.').grows 0).ahead
      exact ends_of_growsAhead hname (notStop_nameToken '.') (List.cons_ne_nil _ _)
  · trivial

theorem punctuation?_ne_stop {c : Char} {afterLayout : Bool} {t : Token}
    (h : punctuation? c afterLayout = some t) : t ≠ .stop := by
  rintro rfl
  unfold punctuation? at h
  cases afterLayout <;> split at h <;> simp at h

theorem ends_tokenFrom (afterLayout : Bool) (c : Char) (hne : lx.input ≠ []) :
    Ends (tokenFrom afterLayout c lx) (fun t lx' => lx'.input.length + weight t ≤ lx.input.length)
      fun _ => True := by
  unfold tokenFrom
  split
  · exact ends_of_growsAhead (((keeps_takeWhile _).bind fun _ => keeps_pure _).grows 0).ahead
      (notStop_bind fun _ => notStop_pure nofun) hne
  rcases hpunctuation : punctuation? c afterLayout with _ | t <;> dsimp only
  · split
    · exact ends_of_growsAhead (((keeps_quotedText c).map _).grows 0).ahead
        (notStop_map fun _ => nofun) hne
    split
    · exact ends_of_growsAhead (((keeps_quotedText c).map _).grows 0).ahead
        (notStop_map fun _ => nofun) hne
    split
    · exact ends_stopToken hne
    split
    · exact ends_of_growsAhead (growsAhead_numberToken c) (notStop_numberToken c) hne
    · exact ends_of_growsAhead ((keeps_nameToken c).grows 0).ahead (notStop_nameToken c) hne
  · exact ends_of_growsAhead (((keeps_skip c).bind fun _ => keeps_pure t).grows 0).ahead
      (notStop_bind fun _ => notStop_pure (punctuation?_ne_stop hpunctuation)) hne

theorem length_skipLayout_le (around : Surrounding) (seen : Bool) (p : Position) (input : Input) :
    (skipLayout around seen p input).2.2.length ≤ input.length := by
  fun_induction skipLayout around seen p input <;> grind

/-- **A token leaves no more than there was, and a full stop leaves less.** -/
theorem ends_token (lx : Lexer) :
    Ends (token lx) (fun t lx' => lx'.input.length + weight t ≤ lx.input.length) fun _ => True := by
  have hlayout := length_skipLayout_le .none false lx.position lx.input
  show Ends (EStateM.bind scanLayout _ { lx with layoutSeen := false }) _ _
  rw [EStateM.bind, scanLayout]
  dsimp only
  rcases hskip : skipLayout .none false lx.position lx.input with ⟨e | seen, p, rest⟩
  · trivial
  · rw [hskip] at hlayout
    rcases rest with _ | ⟨c | fault, rest⟩
    · trivial
    · exact (ends_tokenFrom (lx.layoutSeen || seen) c (List.cons_ne_nil (.char c) rest)).imp
        (fun _ _ h => Nat.le_trans h hlayout) fun _ => id
    · trivial

end Lexer

end Clausal

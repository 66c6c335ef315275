import Mathlib.Data.List.Chain
import Mathlib.Data.List.TakeWhile
import Clausal.Proofs.Syntax.Advance

/-! # Progress of the lexer

A loop that takes tokens until nothing remains comes to an end if every token takes a character.  The
class of characters that begin a variable and the class of those that continue a name are not made
for each other, though: a capital that counts as a number as well begins a variable and then continues
no name, so the variable has no name, and what remains is what there was.

The capitals of this kind are the sixteen Roman numerals from `Ⅰ` to `Ⅿ`, by the tables of
`Text.uppercaseRanges` and `Text.numericRanges`.  Everywhere else a token takes a character, so the
loop ends exactly if it never comes to stand in front of one of them.
-/

namespace Clausal

namespace Text

variable {c : Char} {ranges others : List (Nat × Nat)}

/-! ## Capitals that continue no name -/

/-- The capital Roman numerals, of which the last is a thousand. -/
def isRomanCapital (c : Char) : Bool := 0x2160 ≤ c.toNat && c.toNat ≤ 0x216F

/-- Whether no code point lies in a range of both lists, of which both are ascending: the ranges that
end before the first of the one list are passed in the other. -/
def apart : List (Nat × Nat) → List (Nat × Nat) → Bool
  | [], _ => true
  | r :: ranges, others =>
    let later := others.dropWhile fun q => q.2 < r.1
    later.head?.all (fun q => r.2 < q.1) && apart ranges later

/-- The ranges come in the order in which they begin. -/
def Ascending (ranges : List (Nat × Nat)) : Prop := ranges.Pairwise fun r q => r.1 ≤ q.1

theorem ascending_of_isChain (h : ranges.IsChain fun r q => r.1 ≤ q.1) : Ascending ranges :=
  haveI : IsTrans (Nat × Nat) fun r q => r.1 ≤ q.1 := ⟨fun _ _ _ => Nat.le_trans⟩
  List.isChain_iff_pairwise.mp h

theorem apart_sound (hranges : Ascending ranges) (hothers : Ascending others)
    (h : apart ranges others = true) : ∀ r ∈ ranges, ∀ q ∈ others, r.2 < q.1 ∨ q.2 < r.1 := by
  induction ranges generalizing others with
  | nil => exact fun r hr => absurd hr List.not_mem_nil
  | cons r ranges ih =>
    obtain ⟨hle, hranges⟩ := List.pairwise_cons.mp hranges
    obtain ⟨hhead, htail⟩ := Bool.and_eq_true_iff.mp h
    have hlater : Ascending (others.dropWhile fun q => q.2 < r.1) :=
      hothers.sublist (List.dropWhile_sublist _)
    -- A range of the other list ends before `r`, or it is still there for the ranges after `r`.
    have hcases : ∀ q ∈ others, q.2 < r.1 ∨ q ∈ others.dropWhile fun q => q.2 < r.1 := by
      intro q hq
      rw [← List.takeWhile_append_dropWhile (p := fun q => decide (q.2 < r.1)) (l := others)] at hq
      rcases List.mem_append.mp hq with hq | hq
      · have hlt := List.mem_takeWhile_imp hq
        exact .inl (of_decide_eq_true hlt)
      · exact .inr hq
    intro r' hr' q hq
    rcases List.mem_cons.mp hr' with rfl | hr'
    · rcases hcases q hq with hlt | hq
      · exact .inr hlt
      · rcases hdrop : others.dropWhile fun q => q.2 < r'.1 with _ | ⟨q₀, later⟩
        · rw [hdrop] at hq
          cases hq
        · rw [hdrop] at hq hlater hhead
          have hlt : r'.2 < q₀.1 := of_decide_eq_true hhead
          rcases List.mem_cons.mp hq with rfl | hq
          · exact .inl hlt
          · exact .inl (Nat.lt_of_lt_of_le hlt ((List.pairwise_cons.mp hlater).1 q hq))
    · rcases hcases q hq with hlt | hq
      · exact .inr (Nat.lt_of_lt_of_le hlt (hle r' hr'))
      · exact ih hranges hlater htail r' hr' q hq

theorem inRanges_eq_false_of_apart (hranges : Ascending ranges) (hothers : Ascending others)
    (h : apart ranges others = true) (hc : inRanges ranges c = true) : inRanges others c = false := by
  rw [Bool.eq_false_iff]
  intro hc'
  obtain ⟨r, hr, hcr⟩ := List.any_eq_true.mp hc
  obtain ⟨q, hq, hcq⟩ := List.any_eq_true.mp hc'
  have hapart := apart_sound hranges hothers h r hr q hq
  simp only [Bool.and_eq_true, decide_eq_true_eq] at hcr hcq
  omega

/-- The capitals beyond ASCII other than the Roman numerals. -/
def letterRanges : List (Nat × Nat) := uppercaseRanges.erase (0x2160, 0x216F)

/-- What comes before the letters beyond ASCII, and the white space after that. -/
def separatorRanges : List (Nat × Nat) :=
  [(0, 0xBF), (0x1680, 0x1680), (0x2000, 0x200A), (0x2028, 0x2029), (0x202F, 0x202F),
   (0x205F, 0x205F), (0x3000, 0x3000)]

theorem ascending_letterRanges : Ascending letterRanges :=
  ascending_of_isChain (by decide +kernel)

theorem inRanges_separatorRanges_of_isBlank (h : isBlank c = true) :
    inRanges separatorRanges c = true := by
  simp only [isBlank, Char.isWhitespace, Bool.or_eq_true, Bool.and_eq_true, decide_eq_true_eq] at h
  rcases h with (((((((((((((rfl | rfl) | rfl) | rfl) | rfl) | rfl) | rfl) | rfl) | rfl) | ⟨hle, hge⟩) |
    rfl) | rfl) | rfl) | rfl) | rfl
  case inl.inl.inl.inl.inl.inr =>
    have hle' : 0x2000 ≤ c.toNat := hle
    have hge' : c.toNat ≤ 0x200A := hge
    simp [inRanges, separatorRanges, hle', hge']
  all_goals decide

/-- Control characters, and what joins into symbolic names, lays out, quotes or stands alone, are no
letters either. -/
theorem inRanges_separatorRanges_of_class
    (h : (isControl c || isSymbol c || isLayout c || isMeta c || isSolo c) = true) :
    inRanges separatorRanges c = true := by
  have hlow : c.toNat ≤ 0xBF := by
    have hlist : ∀ {cs : List Char}, (cs.all fun d => d.toNat ≤ 0xBF) = true →
        cs.contains c = true → c.toNat ≤ 0xBF := by
      intro cs hcs hc
      exact of_decide_eq_true (List.all_eq_true.mp hcs c (List.contains_iff_mem.mp hc))
    simp only [Bool.or_eq_true] at h
    rcases h with (((h | h) | h) | h) | h
    · have hlt : c.toNat < 0x20 ∨ 0x7F ≤ c.toNat ∧ c.toNat < 0xA0 := by
        simpa [isControl, UInt32.lt_iff_toNat_lt, UInt32.le_iff_toNat_le] using h
      omega
    · exact hlist (by decide) h
    · simp only [isLayout, Bool.or_eq_true, decide_eq_true_eq] at h
      rcases h with ((((rfl | rfl) | rfl) | rfl) | rfl) | rfl <;> decide
    · simp only [isMeta, Bool.or_eq_true, decide_eq_true_eq] at h
      rcases h with ((rfl | rfl) | rfl) | rfl <;> decide
    · exact hlist (by decide) h
  simp [inRanges, separatorRanges, hlow]

theorem not_ascii_of_separator (h : inRanges separatorRanges c = false) : 0xBF < c.toNat := by
  simp only [inRanges, separatorRanges, List.any_cons, Bool.or_eq_false_iff] at h
  simpa using h.1

/-- A capital beyond ASCII that is no Roman numeral continues a name. -/
theorem isAlnum_of_letter (h : inRanges letterRanges c = true) : isAlnum c = true := by
  have hseparator : inRanges separatorRanges c = false :=
    inRanges_eq_false_of_apart ascending_letterRanges (ascending_of_isChain (by decide))
      (by decide +kernel) h
  have hnumber : inRanges numericRanges c = false :=
    inRanges_eq_false_of_apart ascending_letterRanges (ascending_of_isChain (by decide +kernel))
      (by decide +kernel) h
  have hhigh := not_ascii_of_separator hseparator
  have hnumeric : isNumeric c = false := by
    have hnot : ¬ c.val < 0x80 := fun hlt => absurd (show c.toNat < 0x80 from hlt) (by omega)
    rw [isNumeric, if_neg hnot, hnumber]
  have hblank : isBlank c = false :=
    Bool.eq_false_iff.mpr fun hc => absurd (inRanges_separatorRanges_of_isBlank hc) (by simp [hseparator])
  have hclass : (isControl c || isSymbol c || isLayout c || isMeta c || isSolo c) = false :=
    Bool.eq_false_iff.mpr fun hc => absurd (inRanges_separatorRanges_of_class hc) (by simp [hseparator])
  simp only [Bool.or_eq_false_iff] at hclass
  obtain ⟨⟨⟨⟨hcontrol, hsymbol⟩, hlayout⟩, hmeta⟩, hsolo⟩ := hclass
  simp [isAlnum, isNameChar, hnumeric, hblank, hcontrol, hsymbol, hlayout, hmeta, hsolo]

theorem letter_or_isRomanCapital (h : inRanges uppercaseRanges c = true) :
    inRanges letterRanges c = true ∨ isRomanCapital c = true := by
  obtain ⟨r, hr, hc⟩ := List.any_eq_true.mp h
  by_cases hroman : r = (0x2160, 0x216F)
  · subst hroman
    exact .inr hc
  · exact .inl (List.any_eq_true.mpr ⟨r, (List.mem_erase_of_ne hroman).mpr hr, hc⟩)

/-- What begins a variable continues a name, unless it is a capital Roman numeral. -/
theorem isAlnum_of_isVariableStart (h : isVariableStart c = true) (hroman : isRomanCapital c = false) :
    isAlnum c = true := by
  rcases Bool.or_eq_true_iff.mp h with hupper | hunderscore
  · by_cases hascii : c.val < 0x80
    · have hletters : ∀ k < 26, isAlnum (Char.ofNat (65 + k)) = true := by decide
      rw [isUppercase, if_pos hascii] at hupper
      have hbounds : 65 ≤ c.toNat ∧ c.toNat ≤ 90 := by
        exact of_decide_eq_true hupper
      have hc := hletters (c.toNat - 65) (by omega)
      rwa [Nat.add_sub_cancel' hbounds.1, Char.ofNat_toNat] at hc
    · rw [isUppercase, if_neg hascii] at hupper
      rcases letter_or_isRomanCapital hupper with hletter | hroman'
      · exact isAlnum_of_letter hletter
      · rw [hroman] at hroman'
        cases hroman'
  · rw [of_decide_eq_true hunderscore]
    decide

/-- A capital Roman numeral begins a variable, and it continues no name and begins no layout. -/
theorem classes_of_isRomanCapital (h : isRomanCapital c = true) :
    (isVariableStart c = true ∧ isAlnum c = false) ∧ isLayout c = false ∧ c ≠ '%' ∧ c ≠ '/' := by
  have hbounds : 0x2160 ≤ c.toNat ∧ c.toNat ≤ 0x216F := by
    simpa [isRomanCapital] using h
  have hall : ∀ k < 16, (isVariableStart (Char.ofNat (0x2160 + k)) = true ∧
      isAlnum (Char.ofNat (0x2160 + k)) = false) ∧ isLayout (Char.ofNat (0x2160 + k)) = false ∧
      Char.ofNat (0x2160 + k) ≠ '%' ∧ Char.ofNat (0x2160 + k) ≠ '/' := by decide +kernel
  have hc := hall (c.toNat - 0x2160) (by omega)
  rwa [Nat.add_sub_cancel' hbounds.1, Char.ofNat_toNat] at hc

end Text

namespace Lexer

variable {lx lx' lx'' : Lexer} {t : Token} {ts : List Token} {c : Char} {rest : Input}

/-! ## One token -/

/-- The lexer stands in front of a capital Roman numeral. -/
def Blocked (lx : Lexer) : Prop :=
  ∃ c rest, lx.input = .char c :: rest ∧ Text.isRomanCapital c = true

/-- Any other character is taken if a token begins with it. -/
theorem bites_tokenFrom (hroman : Text.isRomanCapital c = false) (afterLayout : Bool) :
    Bites c (tokenFrom afterLayout c) := by
  unfold tokenFrom
  split
  · rename_i hvariable
    have htake := bites_takeWhile (Text.isAlnum_of_isVariableStart hvariable hroman)
    exact htake.bind fun name => advances_pure _
  rcases punctuation? c afterLayout with _ | t <;> dsimp only
  · split
    · exact (bites_quotedText c).map _
    split
    · exact (bites_quotedText c).map _
    split
    · rename_i hpoint
      exact hpoint ▸ bites_stopToken
    split
    · exact bites_numberToken c
    · exact bites_nameToken c
  · exact (bites_skip c).bind fun _ => advances_pure t

/-- In front of a capital Roman numeral there is a variable without a name, and nothing is taken. -/
theorem tokenFrom_blocked (hroman : Text.isRomanCapital c = true) (hc : lx.input = .char c :: rest)
    (afterLayout : Bool) : tokenFrom afterLayout c lx = .ok (.var "") lx := by
  obtain ⟨⟨hvariable, halnum⟩, -⟩ := Text.classes_of_isRomanCapital hroman
  have htake : takeWhile Text.isAlnum lx = .ok [] lx := by
    obtain ⟨input, position, layoutSeen⟩ := lx
    dsimp only at hc
    subst hc
    rw [takeWhile, spanChars, if_neg (by rw [halnum]; exact Bool.false_ne_true)]
    rfl
  rw [tokenFrom, if_pos hvariable]
  exact bind_eq_of_ok htake

theorem scanLayout_blocked (h : lx.Blocked) : scanLayout lx = .ok false lx := by
  obtain ⟨c, rest, hc, hroman⟩ := h
  obtain ⟨-, hlayout, hpercent, hslash⟩ := Text.classes_of_isRomanCapital hroman
  rw [scanLayout, hc, skipLayout_char, if_neg (by rw [hlayout]; exact Bool.false_ne_true),
    if_neg hpercent, if_neg hslash, ← hc]

theorem token_blocked (h : lx.Blocked) : token lx = .ok (.var "") { lx with layoutSeen := false } := by
  have hscan : scanLayout { lx with layoutSeen := false } = .ok false { lx with layoutSeen := false } :=
    scanLayout_blocked h
  obtain ⟨c, rest, hc, hroman⟩ := h
  rw [token_eq, tokenAfter, bind_eq_of_ok hscan]
  have hahead : lookahead { lx with layoutSeen := false } = .ok c { lx with layoutSeen := false } := by
    obtain ⟨input, position, layoutSeen⟩ := lx
    dsimp only at hc
    subst hc
    rfl
  rw [bind_eq_of_ok hahead]
  have hinput : ({ lx with layoutSeen := false } : Lexer).input = .char c :: rest := hc
  exact tokenFrom_blocked hroman hinput _

/-- A token takes at least one character, except in front of a capital Roman numeral. -/
theorem shortens_token (hfree : ¬ lx.Blocked) (h : token lx = .ok t lx') :
    lx'.input.length < lx.input.length := by
  have hshorter : Ends (token lx) (fun _ lx' => lx'.input.length < lx.input.length) fun _ => True := by
    rw [token_eq]
    refine Ends.bind (Q := fun _ lx₁ => Passed lx.input lx₁)
      ((advances_scanLayout { lx with layoutSeen := false }).imp (fun _ _ => id) fun _ _ => trivial) ?_
    intro seen lx₁ hpassed
    have hle := hpassed.suffix.length_le
    obtain ⟨input, position, layoutSeen⟩ := lx₁
    rcases input with _ | ⟨c | fault, rest⟩
    · trivial
    · show Ends (tokenFrom _ c ⟨.char c :: rest, position, layoutSeen⟩) _ _
      rcases hroman : Text.isRomanCapital c
      · refine (bites_tokenFrom hroman _ ⟨.char c :: rest, position, layoutSeen⟩ rest rfl).imp ?_
          fun _ _ => trivial
        intro t lx₂ hrest
        exact Nat.lt_of_lt_of_le (Nat.lt_succ_of_le hrest.suffix.length_le) hle
      · rw [tokenFrom_blocked hroman rfl]
        obtain ⟨cs, hcs⟩ := hpassed
        -- Without layout before it, the numeral is where the lexer stands.
        cases cs with
        | nil => exact absurd ⟨c, rest, hcs, hroman⟩ hfree
        | cons d cs =>
          rw [hcs, List.length_append, List.map_cons, List.length_cons]
          exact Nat.lt_add_of_pos_left (Nat.succ_pos _)
    · trivial
  exact hshorter.of_ok h

/-! ## The loop -/

/-- One round of the loop that takes tokens until nothing but layout and comments remains. -/
def Round (lx : Lexer) (t : Token) (lx' : Lexer) : Prop :=
  ∃ lx₁, atEnd lx = .ok false lx₁ ∧ token lx₁ = .ok t lx'

/-- Rounds of the loop, with the tokens they take. -/
inductive Rounds : Lexer → List Token → Lexer → Prop
  | none (lx : Lexer) : Rounds lx [] lx
  | more {lx lx' lx'' : Lexer} {t : Token} {ts : List Token} (round : Round lx t lx')
      (rounds : Rounds lx' ts lx'') : Rounds lx (t :: ts) lx''

/-- The loop goes no further: nothing remains, or an error is met. -/
def Halts (lx : Lexer) : Prop := ∀ t lx', ¬ Round lx t lx'

/-- The loop comes to an end. -/
def LoopEnds (lx : Lexer) : Prop := ∃ ts lx', Rounds lx ts lx' ∧ lx'.Halts

theorem Round.unique {t' : Token} {lx₁ lx₂ : Lexer} (h : Round lx t lx₁) (h' : Round lx t' lx₂) :
    lx₂ = lx₁ := by
  obtain ⟨lx₀, hend, htoken⟩ := h
  obtain ⟨lx₀', hend', htoken'⟩ := h'
  rw [hend] at hend'
  cases hend'
  rw [htoken] at htoken'
  cases htoken'
  rfl

theorem Blocked.round (h : lx.Blocked) : Round lx (.var "") { lx with layoutSeen := false } := by
  refine ⟨lx, ?_, token_blocked h⟩
  rw [atEnd, bind_eq_of_ok (scanLayout_blocked h)]
  obtain ⟨c, rest, hc, -⟩ := h
  obtain ⟨input, position, layoutSeen⟩ := lx
  dsimp only at hc
  subst hc
  cases layoutSeen <;> rfl

/-- A round takes a character or ends in front of a capital Roman numeral. -/
theorem Round.shorter_or_blocked (h : Round lx t lx') :
    lx'.input.length < lx.input.length ∨ lx'.Blocked := by
  obtain ⟨lx₁, hend, htoken⟩ := h
  by_cases hblocked : lx₁.Blocked
  · rw [token_blocked hblocked] at htoken
    cases htoken
    exact .inr hblocked
  · have hle := (advances_atEnd lx).of_ok hend |>.suffix.length_le
    exact .inl (Nat.lt_of_lt_of_le (shortens_token hblocked htoken) hle)

theorem Blocked.stays (h : lx.Blocked) (hrounds : Rounds lx ts lx') : lx'.Blocked := by
  induction hrounds with
  | none => exact h
  | more round _ ih =>
    refine ih ?_
    rw [h.round.unique round]
    exact h

theorem Blocked.not_halts (h : lx.Blocked) : ¬ lx.Halts := fun hhalts => hhalts _ _ h.round

/-- Every token of the loop takes a character until it comes in front of a capital Roman numeral. -/
theorem Rounds.length_le (h : Rounds lx ts lx') :
    ts.length + lx'.input.length ≤ lx.input.length ∨ lx'.Blocked := by
  induction h with
  | none lx => exact .inl (Nat.le_of_eq (Nat.zero_add _))
  | more round rounds ih =>
    rcases round.shorter_or_blocked with hshorter | hblocked
    · refine ih.imp_left fun hle => ?_
      rw [List.length_cons]
      omega
    · exact .inr (hblocked.stays rounds)

/-- The loop ends or comes in front of a capital Roman numeral, by induction on what remains. -/
theorem exists_rounds (lx : Lexer) : ∃ ts lx', Rounds lx ts lx' ∧ (lx'.Halts ∨ lx'.Blocked) := by
  induction hn : lx.input.length using Nat.strong_induction_on generalizing lx with
  | _ n ih =>
    subst hn
    by_cases hhalts : lx.Halts
    · exact ⟨[], lx, .none lx, .inl hhalts⟩
    · obtain ⟨t, lx₁, hround⟩ : ∃ t lx₁, Round lx t lx₁ := by
        simpa only [Halts, not_forall, not_not] using hhalts
      rcases hround.shorter_or_blocked with hshorter | hblocked
      · obtain ⟨ts, lx', hrounds, hend⟩ := ih _ hshorter lx₁ rfl
        exact ⟨t :: ts, lx', .more hround hrounds, hend⟩
      · exact ⟨[t], lx₁, .more hround (.none lx₁), .inr hblocked⟩

/-- The loop is the same every time: where it halts, it has not been in front of such a numeral. -/
theorem Rounds.not_blocked {us : List Token} (h : Rounds lx ts lx') (hhalts : lx'.Halts)
    (h' : Rounds lx us lx'') : ¬ lx''.Blocked := by
  induction h' generalizing ts with
  | none lx => exact fun hblocked => (hblocked.stays h).not_halts hhalts
  | more round _ ih =>
    cases h with
    | none => exact absurd round (hhalts _ _)
    | more round' rounds' =>
      rw [round.unique round'] at rounds'
      exact ih rounds'

theorem loopEnds_iff : lx.LoopEnds ↔ ¬ ∃ ts lx', Rounds lx ts lx' ∧ lx'.Blocked := by
  constructor
  · rintro ⟨ts, lx', hrounds, hhalts⟩ ⟨us, lx'', hrounds', hblocked⟩
    exact hrounds.not_blocked hhalts hrounds' hblocked
  · intro hnever
    obtain ⟨ts, lx', hrounds, hend⟩ := exists_rounds lx
    refine ⟨ts, lx', hrounds, hend.resolve_right fun hblocked => ?_⟩
    exact hnever ⟨ts, lx', hrounds, hblocked⟩

/-- What remains after some rounds is an end of what there was. -/
theorem Rounds.suffix (h : Rounds lx ts lx') : lx'.input <:+ lx.input := by
  induction h with
  | none => exact List.suffix_refl _
  | more round _ ih =>
    obtain ⟨lx₁, hend, htoken⟩ := round
    have hend' := ((advances_atEnd _).of_ok hend).suffix
    have htoken' := ((takes_token lx₁).of_ok htoken).1.suffix
    exact ih.trans (htoken'.trans hend')

/-- **Progress of the lexer.**  A token makes what remains shorter, except exactly in front of a capital
Roman numeral, where the token is a variable without a name and nothing changes.  So the loop that takes
tokens until nothing remains has never taken more tokens than characters before it comes there, and it
ends if and only if it never does, as on every source without these sixteen characters. -/
theorem progress (lx : Lexer) :
    (∀ t lx', token lx = .ok t lx' → (lx'.input.length < lx.input.length ↔ ¬ lx.Blocked)) ∧
    (lx.Blocked → token lx = .ok (.var "") { lx with layoutSeen := false }) ∧
    (∀ ts lx', Rounds lx ts lx' →
      ts.length + lx'.input.length ≤ lx.input.length ∨ lx'.Blocked) ∧
    (lx.LoopEnds ↔ ¬ ∃ ts lx', Rounds lx ts lx' ∧ lx'.Blocked) ∧
    ((∀ c, .char c ∈ lx.input → Text.isRomanCapital c = false) → lx.LoopEnds) := by
  refine ⟨?_, token_blocked, fun _ _ => Rounds.length_le, loopEnds_iff, ?_⟩
  · intro t lx' htoken
    constructor
    · intro hshorter hblocked
      rw [token_blocked hblocked] at htoken
      cases htoken
      exact Nat.lt_irrefl _ hshorter
    · exact fun hfree => shortens_token hfree htoken
  · intro hnone
    refine loopEnds_iff.mpr ?_
    rintro ⟨ts, lx', hrounds, c, rest, hc, hroman⟩
    have hmem : Item.char c ∈ lx.input := hrounds.suffix.subset (hc ▸ List.mem_cons_self)
    rw [hnone c hmem] at hroman
    cases hroman

end Lexer

end Clausal

import Clausal.Proofs.Actions
import Clausal.Proofs.Inclusion.Lexing

/-! # Lexing goes forward

Numbers and points put back the characters that turned out not to belong to them, and comments the
slash that begins none.  Yet no action of the lexer loses, invents or reorders what there is to read.
`Lexer.Advances back m` says this of an action that may put back the characters in `back`, which were
passed just before it: what it leaves is an end of what there was with these in front, and if it
succeeds, then it has passed nothing but characters.

The result is `Lexer.takes_token`: a token takes at least one character, unless it is a variable
without a name.
-/

namespace Clausal

namespace Lexer

variable {α β : Type} {back : List Char} {c : Char} {lx : Lexer}

/-- What is left of the input after some characters of it were passed. -/
def Passed (input : Input) (lx : Lexer) : Prop :=
  ∃ cs : List Char, input = cs.map .char ++ lx.input

theorem passed_refl (lx : Lexer) : Passed lx.input lx := ⟨[], rfl⟩

theorem Passed.trans {input : Input} {lx lx' : Lexer} (h : Passed input lx)
    (h' : Passed lx.input lx') : Passed input lx' := by
  obtain ⟨cs, hcs⟩ := h
  obtain ⟨ds, hds⟩ := h'
  exact ⟨cs ++ ds, by rw [hcs, hds, List.map_append, List.append_assoc]⟩

theorem Passed.append {input : Input} (h : Passed input lx) (cs : List Char) :
    Passed (cs.map .char ++ input) lx := by
  obtain ⟨ds, hds⟩ := h
  exact ⟨cs ++ ds, by rw [hds, List.map_append, List.append_assoc]⟩

theorem Passed.suffix {input : Input} (h : Passed input lx) : lx.input <:+ input := by
  obtain ⟨cs, hcs⟩ := h
  exact ⟨cs.map .char, hcs.symm⟩

/-- The action goes forward, but for the characters that it may put back. -/
def Advances (back : List Char) (m : Lexing α) : Prop :=
  ∀ lx, Ends (m lx) (fun _ lx' => Passed (back.map .char ++ lx.input) lx')
    fun lx' => lx'.input <:+ back.map .char ++ lx.input

/-- The same, if `c` is the next character. -/
def AdvancesAt (c : Char) (back : List Char) (m : Lexing α) : Prop :=
  ∀ lx rest, lx.input = .char c :: rest →
    Ends (m lx) (fun _ lx' => Passed (back.map .char ++ lx.input) lx')
      fun lx' => lx'.input <:+ back.map .char ++ lx.input

/-- If `c` is the next character, the action passes it and goes forward from there. -/
def Bites (c : Char) (m : Lexing α) : Prop :=
  ∀ lx rest, lx.input = .char c :: rest →
    Ends (m lx) (fun _ lx' => Passed rest lx') fun lx' => lx'.input <:+ lx.input

/-! ## Steps -/

theorem Advances.at {m : Lexing α} (h : Advances back m) : AdvancesAt c back m := fun lx _ _ => h lx

/-- An action that puts nothing back may come after anything that was passed. -/
theorem Advances.after {m : Lexing α} (h : Advances [] m) (back : List Char) : Advances back m := by
  intro lx
  refine (h lx).imp ?_ ?_
  · intro _ lx' hpassed
    exact hpassed.append back
  · intro lx' hsuffix
    exact List.IsSuffix.trans hsuffix (List.suffix_append _ _)

theorem Bites.advancesAt {m : Lexing α} (h : Bites c m) : AdvancesAt c [] m := by
  intro lx rest hc
  refine (h lx rest hc).imp ?_ fun _ => id
  intro _ lx' hpassed
  rw [hc]
  exact hpassed.append [c]

theorem Advances.bind {m : Lexing α} {f : α → Lexing β} (hm : Advances [] m)
    (hf : ∀ a, Advances [] (f a)) : Advances [] (m >>= f) := by
  intro lx
  refine Ends.bind (Q := fun _ lx' => Passed lx.input lx') (hm lx) ?_
  intro a lx' hpassed
  refine (hf a lx').imp ?_ ?_
  · intro _ lx'' hpassed'
    exact hpassed.trans hpassed'
  · intro lx'' hsuffix
    exact List.IsSuffix.trans hsuffix hpassed.suffix

theorem Bites.bind {m : Lexing α} {f : α → Lexing β} (hm : Bites c m)
    (hf : ∀ a, Advances [] (f a)) : Bites c (m >>= f) := by
  intro lx rest hc
  refine Ends.bind (Q := fun _ lx' => Passed rest lx') (hm lx rest hc) ?_
  intro a lx' hpassed
  refine (hf a lx').imp ?_ ?_
  · intro _ lx'' hpassed'
    exact hpassed.trans hpassed'
  · intro lx'' hsuffix
    rw [hc]
    exact (List.IsSuffix.trans hsuffix hpassed.suffix).trans (List.suffix_cons _ _)

theorem Advances.map {m : Lexing α} (h : Advances back m) (f : α → β) : Advances back (f <$> m) :=
  fun lx => Ends.map (h lx)

theorem AdvancesAt.map {m : Lexing α} (h : AdvancesAt c back m) (f : α → β) :
    AdvancesAt c back (f <$> m) :=
  fun lx rest hc => Ends.map (h lx rest hc)

theorem Bites.map {m : Lexing α} (h : Bites c m) (f : α → β) : Bites c (f <$> m) :=
  fun lx rest hc => Ends.map (h lx rest hc)

theorem advances_pure (a : α) : Advances [] (pure a) := passed_refl

theorem advances_throw (e : ReadError) : Advances [] (throw e : Lexing α) :=
  fun lx => List.suffix_refl lx.input

theorem advances_failHere (e : Position → ReadError) : Advances [] (failHere e : Lexing α) :=
  fun lx => List.suffix_refl lx.input

/-- Looking at the next character, if there is one. -/
theorem advances_peek?_bind {f : Option Char → Lexing α} (hsome : ∀ c, AdvancesAt c back (f (some c)))
    (hnone : Advances back (f none)) : Advances back (peek? >>= f) := by
  intro ⟨input, position, layoutSeen⟩
  rcases input with _ | ⟨c | fault, rest⟩
  · exact hnone _
  · exact hsome c _ rest rfl
  · exact (List.suffix_cons _ _).trans (List.suffix_append _ _)

theorem advances_lookahead_bind {f : Char → Lexing α} (h : ∀ c, AdvancesAt c [] (f c)) :
    Advances [] (lookahead >>= f) := by
  rw [lookahead, bind_assoc]
  exact advances_peek?_bind h (advances_throw _)

/-- Passing the next character, which may be put back from then on. -/
theorem advancesAt_skip_bind {f : Unit → Lexing α} (h : Advances (back ++ [c]) (f ())) :
    AdvancesAt c back (skip c >>= f) := by
  intro lx rest hc
  have hrest := h { lx with input := lx.input.tail, position := lx.position.next c }
  have heq : (back ++ [c]).map Item.char ++ lx.input.tail = back.map .char ++ lx.input := by
    rw [List.map_append, List.append_assoc, hc]
    rfl
  rwa [heq] at hrest

theorem bites_skip (c : Char) : Bites c (skip c) := by
  intro lx rest hc
  show Passed rest { lx with input := lx.input.tail, position := lx.position.next c }
  rw [hc]
  exact ⟨[], rfl⟩

/-- Putting a character back that was passed. -/
theorem advances_putBack_bind {f : Unit → Lexing α} (h : Advances back (f ())) :
    Advances (back ++ [c]) (putBack c >>= f) := by
  intro lx
  have hrest := h { lx with input := .char c :: lx.input }
  have heq : (back ++ [c]).map Item.char ++ lx.input = back.map .char ++ .char c :: lx.input := by
    rw [List.map_append, List.append_assoc]
    rfl
  rw [heq]
  exact hrest

theorem advances_take : Advances [] take :=
  advances_lookahead_bind fun c => ((bites_skip c).bind fun _ => advances_pure c).advancesAt

theorem advances_skipIf (c : Char) : Advances [] (skipIf c) := by
  refine advances_peek?_bind ?_ ?_
  · intro d
    split
    · rename_i heq
      cases heq
      exact ((bites_skip c).bind fun _ => advances_pure true).advancesAt
    · exact (advances_pure false).at
  · exact advances_pure false

/-! ## Characters of a class -/

theorem eq_append_spanChars (p : Char → Bool) (input : Input) :
    input = (spanChars p input).1.map .char ++ (spanChars p input).2 := by
  fun_induction spanChars p input with
  | case1 c rest h cs rest' heq ih =>
    rw [heq] at ih
    rw [List.map_cons, List.cons_append, ← ih]
  | case2 => rfl
  | case3 => rfl

theorem advances_takeWhile (p : Char → Bool) : Advances [] (takeWhile p) := by
  intro lx
  have heq := eq_append_spanChars p lx.input
  rw [takeWhile]
  generalize spanChars p lx.input = r at heq ⊢
  obtain ⟨cs, rest⟩ := r
  dsimp only at heq ⊢
  split
  · rename_i fault rest'
    show rest' <:+ lx.input
    rw [heq]
    exact (List.suffix_cons _ _).trans (List.suffix_append _ _)
  · exact ⟨cs, heq⟩

/-- Of what is taken while it belongs to a class, the first character does. -/
theorem bites_takeWhile {p : Char → Bool} (hp : p c = true) : Bites c (takeWhile p) := by
  intro lx rest hc
  have heq := eq_append_spanChars p rest
  have hspan : spanChars p lx.input = (c :: (spanChars p rest).1, (spanChars p rest).2) := by
    rw [hc, spanChars, if_pos hp]
  rw [takeWhile, hspan, hc]
  generalize spanChars p rest = r at heq ⊢
  obtain ⟨cs, rest'⟩ := r
  dsimp only at heq ⊢
  split
  · rename_i fault rest''
    show rest'' <:+ .char c :: rest
    rw [heq]
    exact ((List.suffix_cons _ _).trans (List.suffix_append _ _)).trans (List.suffix_cons _ _)
  · exact ⟨cs, heq⟩

/-! ## Quoted text -/

theorem advances_numericEscape (radix : Nat) : Advances [] (numericEscape radix) := by
  refine (advances_takeWhile _).bind fun digits => advances_lookahead_bind fun c => ?_
  split
  · refine ((bites_skip c).bind fun _ => ?_).advancesAt
    split
    · exact advances_pure _
    · exact advances_failHere _
  · exact (advances_failHere _).at

theorem advancesAt_escape (c : Char) : AdvancesAt c [] (escape c) := by
  unfold escape
  split
  · exact ((bites_skip c).bind fun _ => advances_pure _).advancesAt
  · split
    · exact (advances_numericEscape 8).at
    · split
      · exact ((bites_skip c).bind fun _ => advances_numericEscape 16).advancesAt
      · exact (advances_failHere _).at

theorem advances_quotedPart (quote : Char) : Advances [] (quotedPart quote) := by
  refine advances_take.bind fun c => ?_
  split
  · exact (advances_skipIf quote).bind fun _ => advances_pure _
  · split
    · refine advances_lookahead_bind fun d => ?_
      split
      · exact ((bites_skip d).bind fun _ => advances_pure _).advancesAt
      · exact (advancesAt_escape d).map _
    · exact advances_pure _

theorem advances_quotedParts (quote : Char) (before : List Char) :
    Advances [] (quotedParts quote before) := by
  intro lx
  have hpart := advances_quotedPart quote lx
  fun_induction quotedParts quote before lx with
  | case1 before lx lx₁ hok => exact hpart.of_ok hok
  | case2 before lx lx₁ hok ih =>
    have hpassed := hpart.of_ok hok
    refine (ih (advances_quotedPart quote lx₁)).imp ?_ ?_
    · intro _ lx' hpassed'
      exact hpassed.trans hpassed'
    · intro lx' hsuffix
      exact List.IsSuffix.trans hsuffix hpassed.suffix
  | case3 before lx c lx₁ hok ih =>
    have hpassed := hpart.of_ok hok
    refine (ih (advances_quotedPart quote lx₁)).imp ?_ ?_
    · intro _ lx' hpassed'
      exact hpassed.trans hpassed'
    · intro lx' hsuffix
      exact List.IsSuffix.trans hsuffix hpassed.suffix
  | case4 before lx e lx₁ herror =>
    rw [herror] at hpart
    exact hpart

theorem bites_quotedText (quote : Char) : Bites quote (quotedText quote) :=
  (bites_skip quote).bind fun _ => (advances_quotedParts quote []).map _

/-! ## Numbers -/

theorem advancesAt_charCodeToken : AdvancesAt '\x27' [] charCodeToken := by
  refine ((bites_skip '\x27').bind fun _ => advances_take.bind fun c => ?_).advancesAt
  dsimp only
  split
  · refine advances_lookahead_bind fun d => ?_
    intro lx rest hd
    refine Ends.bind (Q := fun _ lx' => Passed lx.input lx') (advancesAt_escape d lx rest hd) ?_
    intro code lx' hpassed
    exact hpassed
  · split
    · exact (advances_skipIf _).bind fun _ => advances_pure _
    · exact advances_pure _

/-- A letter that announces no digits is put back. -/
theorem advancesAt_radixToken (letter : Char) (radix : Nat) :
    AdvancesAt letter [] (radixToken letter radix) := by
  have hletter : Advances ([] ++ [letter]) (putBack letter >>= fun _ => pure (integerToken 10 ['0'])) :=
    advances_putBack_bind (advances_pure _)
  refine advancesAt_skip_bind (advances_peek?_bind (fun d => Advances.at ?_) ?_)
  · split
    · exact ((advances_takeWhile _).map _).after _
    · exact hletter
  · exact hletter

/-- The sign and the letter of an exponent without digits are put back. -/
theorem advances_exponentPart : Advances [] exponentPart := by
  have hdigits : ∀ (e : Char) (sign : Option Char), Advances ([e] ++ sign.toList) (do
      if (← peek?).any Text.isDigit then
        let n := Text.digitsValue 10 (← takeWhile Text.isDigit)
        pure (if sign = some '-' then -n else n : Int)
      else
        sign.forM putBack
        putBack e
        pure 0) := by
    intro e sign
    have hback : Advances ([e] ++ sign.toList) (do
        sign.forM putBack
        putBack e
        pure (0 : Int)) := by
      have hlast : Advances ([] ++ [e]) (putBack e >>= fun _ => (pure 0 : Lexing Int)) :=
        advances_putBack_bind (advances_pure 0)
      cases sign with
      | none => exact hlast
      | some d => exact advances_putBack_bind (f := fun _ => putBack e >>= fun _ => pure 0) hlast
    have htake : Advances ([e] ++ sign.toList) (do
        let n := Text.digitsValue 10 (← takeWhile Text.isDigit)
        pure (if sign = some '-' then -n else n : Int)) :=
      ((advances_takeWhile _).bind fun _ => advances_pure _).after _
    refine advances_peek?_bind (fun d => Advances.at ?_) hback
    split
    · exact htake
    · exact hback
  refine advances_peek?_bind (fun c => ?_) (advances_pure _)
  by_cases hc : (c = 'e' || c = 'E') = true
  · rw [Option.filter_some, if_pos hc]
    refine advancesAt_skip_bind (advances_peek?_bind (fun d => ?_) (hdigits c none))
    by_cases hd : (d = '-' || d = '+') = true
    · rw [Option.filter_some, if_pos hd]
      exact advancesAt_skip_bind (hdigits c (some d))
    · rw [Option.filter_some, if_neg hd]
      exact (hdigits c none).at
  · rw [Option.filter_some, if_neg hc]
    exact (advances_pure _).at

/-- A point without a digit after it is put back. -/
theorem advances_decimalToken (first : Char) : Advances [] (decimalToken first) := by
  have hfraction : ∀ whole : List Char, Advances ['.'] (do
      if (← peek?).any Text.isDigit then
        let fraction ← takeWhile Text.isDigit
        let exponent ← exponentPart
        let coefficient := Text.digitsValue 10 (whole ++ fraction)
        pure (.literal (.float (.ofDecimal coefficient (exponent - fraction.length))))
      else
        putBack '.'
        pure (integerToken 10 whole)) := by
    intro whole
    have hback : Advances ([] ++ ['.']) (putBack '.' >>= fun _ => pure (integerToken 10 whole)) :=
      advances_putBack_bind (advances_pure _)
    refine advances_peek?_bind (fun d => Advances.at ?_) hback
    split
    · exact ((advances_takeWhile _).bind fun _ => advances_exponentPart.bind fun _ =>
        advances_pure _).after _
    · exact hback
  refine (advances_takeWhile _).bind fun digits => ?_
  intro ⟨input, position, layoutSeen⟩
  rcases input with _ | ⟨c | fault, rest⟩
  · exact ⟨[], rfl⟩
  · by_cases hc : c = '.'
    · subst hc
      exact hfraction (first :: digits) ⟨rest, position.next '.', layoutSeen⟩
    · have hskip : skipIf '.' ⟨.char c :: rest, position, layoutSeen⟩ =
          .ok false ⟨.char c :: rest, position, layoutSeen⟩ := by
        show (if some c = some '.' then (do skip '.'; pure true) else pure false : Lexing Bool) _ = _
        rw [if_neg (fun h => hc (Option.some.inj h))]
        rfl
      rw [bind_eq_of_ok hskip]
      exact ⟨[], rfl⟩
  · exact List.suffix_cons _ _

theorem bites_numberToken (c : Char) : Bites c (numberToken c) := by
  have hdecimal := advances_decimalToken c
  refine (bites_skip c).bind fun _ => ?_
  by_cases hzero : c = '0'
  · simp only [if_pos hzero]
    refine advances_peek?_bind (fun d => ?_) hdecimal
    split
    · rename_i heq
      cases heq
      exact advancesAt_charCodeToken
    · rename_i heq
      cases heq
      split
      · exact advancesAt_radixToken _ _
      · exact hdecimal.at
    · exact hdecimal.at
  · simp only [if_neg hzero]
    exact hdecimal

/-! ## Tokens -/

theorem bites_nameToken (c : Char) : Bites c (nameToken c) := by
  have hname : ∀ name : String, Advances [] (pure (.literal (.atom name)) : Lexing Token) :=
    fun name => advances_pure _
  unfold nameToken
  dsimp only
  split
  · refine (bites_skip c).bind fun _ => ?_
    exact ((advances_takeWhile _).map _).bind hname
  · split
    · rename_i hsymbol
      exact ((bites_takeWhile hsymbol).map _).bind hname
    · split
      · exact (bites_skip c).bind fun _ => hname _
      · split
        · rename_i hquote
          rw [hquote]
          exact (bites_quotedText _).bind hname
        · intro lx rest hc
          exact List.suffix_refl lx.input

theorem bites_stopToken : Bites '.' stopToken := by
  intro ⟨input, position, layoutSeen⟩ rest hc
  dsimp only at hc
  subst hc
  rcases rest with _ | ⟨c | fault, rest⟩
  · exact ⟨[], rfl⟩
  · show Ends ((if Text.isLayout c || c = '%' then pure .stop
      else do
        putBack '.'
        nameToken '.' : Lexing Token) ⟨.char c :: rest, position.next '.', layoutSeen⟩) _ _
    split
    · exact ⟨[], rfl⟩
    · exact bites_nameToken '.' ⟨.char '.' :: .char c :: rest, position.next '.', layoutSeen⟩ _ rfl
  · exact (List.suffix_cons _ _).trans (List.suffix_cons _ _)

end Lexer

/-- How many characters the token takes at least: none only if it is a variable without a name. -/
def Token.weight (t : Token) : Nat := if t = .var "" then 0 else 1

theorem Token.weight_le (t : Token) : t.weight ≤ 1 := by
  unfold Token.weight
  split <;> omega

namespace Lexer

/-- A token was taken of the input. -/
def Taken (input : Input) (t : Token) (lx : Lexer) : Prop :=
  Passed input lx ∧ lx.input.length + t.weight ≤ input.length

theorem Bites.takes {m : Lexing Token} (h : Bites c m) {rest : Input}
    (hc : lx.input = .char c :: rest) :
    Ends (m lx) (Taken lx.input) fun lx' => lx'.input <:+ lx.input := by
  refine (h lx rest hc).imp ?_ fun _ => id
  intro t lx' hpassed
  have hle := hpassed.suffix.length_le
  have hweight := t.weight_le
  rw [hc]
  refine ⟨hpassed.append [c], ?_⟩
  rw [List.length_cons]
  omega

/-- A variable takes a character, unless it has no name. -/
theorem takes_variableToken :
    Ends (variableToken lx) (Taken lx.input) fun lx' => lx'.input <:+ lx.input := by
  have hadvances := advances_takeWhile Text.isAlnum lx
  have heq := eq_append_spanChars Text.isAlnum lx.input
  show Ends (EStateM.bind (takeWhile Text.isAlnum) _ lx) _ _
  rw [EStateM.bind]
  rcases hresult : takeWhile Text.isAlnum lx with ⟨cs, lx'⟩ | ⟨e, lx'⟩
  · refine ⟨hadvances.of_ok hresult, ?_⟩
    -- What was taken are the characters that belong to the class.
    have hrest : cs = (spanChars Text.isAlnum lx.input).1 ∧
        lx'.input = (spanChars Text.isAlnum lx.input).2 := by
      simp only [takeWhile] at hresult
      split at hresult
      · cases hresult
      · cases hresult
        exact ⟨rfl, rfl⟩
    have hlength := congrArg List.length heq
    rw [← hrest.1, ← hrest.2, List.length_append, List.length_map] at hlength
    have hweight : (Token.var (String.ofList cs)).weight ≤ cs.length := by
      cases cs with
      | nil => exact Nat.le_of_eq (if_pos rfl)
      | cons c cs => exact Nat.le_trans (Token.weight_le _) (Nat.succ_pos _)
    omega
  · rw [hresult] at hadvances
    exact hadvances

theorem takes_tokenFrom (afterLayout : Bool) {rest : Input} (hc : lx.input = .char c :: rest) :
    Ends (tokenFrom afterLayout c lx) (Taken lx.input) fun lx' => lx'.input <:+ lx.input := by
  unfold tokenFrom
  split
  · exact takes_variableToken
  rcases hpunctuation : punctuation? c afterLayout with _ | t <;> dsimp only
  · split
    · exact ((bites_quotedText c).map _).takes hc
    split
    · exact ((bites_quotedText c).map _).takes hc
    split
    · rename_i hpoint
      exact bites_stopToken.takes (hpoint ▸ hc)
    split
    · exact (bites_numberToken c).takes hc
    · exact (bites_nameToken c).takes hc
  · exact ((bites_skip c).bind fun _ => advances_pure t).takes hc

/-! ## Layout -/

/-- What skipping layout has left of the input is an end of it, and if there was no error, only
characters were skipped. -/
def Skipped (input : Input) (r : Except ReadError Bool × Position × Input) : Prop :=
  r.2.2 <:+ input ∧ ∀ seen, r.1 = .ok seen → ∃ cs : List Char, input = cs.map .char ++ r.2.2

theorem skipped_refl (seen : Bool) (p : Position) (input : Input) :
    Skipped input (.ok seen, p, input) :=
  ⟨List.suffix_refl input, fun _ _ => ⟨[], rfl⟩⟩

theorem skipped_error (e : ReadError) (p : Position) {rest input : Input} (h : rest <:+ input) :
    Skipped input (.error e, p, rest) := by
  refine ⟨h, ?_⟩
  intro seen hok
  cases hok

theorem Skipped.cons {input : Input} {r : Except ReadError Bool × Position × Input}
    (h : Skipped input r) (c : Char) : Skipped (.char c :: input) r := by
  obtain ⟨hsuffix, hok⟩ := h
  refine ⟨hsuffix.trans (List.suffix_cons _ _), ?_⟩
  intro seen hseen
  obtain ⟨cs, hcs⟩ := hok seen hseen
  exact ⟨c :: cs, congrArg (Item.char c :: ·) hcs⟩

theorem skipped_skipLayout (around : Surrounding) (seen : Bool) (p : Position) (input : Input) :
    Skipped input (skipLayout around seen p input) := by
  fun_induction skipLayout around seen p input with
  | case1 => exact skipped_error _ _ (List.suffix_refl _)
  | case2 => exact skipped_refl _ _ _
  | case3 => exact skipped_error _ _ (List.suffix_cons _ _)
  | case4 seen p c rest ih => exact ih.cons c
  | case5 seen p c rest star ih => exact ih.cons c
  | case6 seen p c rest hlayout ih => exact ih.cons c
  | case7 seen p rest hlayout ih => exact ih.cons '%'
  | case8 seen p rest hlayout hslash ih => exact (ih.cons '*').cons '/'
  | case9 => exact skipped_error _ _ ((List.suffix_cons _ _).trans (List.suffix_cons _ _))
  | case10 => exact skipped_refl _ _ _
  | case11 => exact skipped_refl _ _ _

theorem advances_scanLayout : Advances [] scanLayout := by
  intro lx
  have hskipped := skipped_skipLayout .none false lx.position lx.input
  rw [scanLayout]
  rcases hskip : skipLayout .none false lx.position lx.input with ⟨e | seen, p, rest⟩
  · rw [hskip] at hskipped
    exact hskipped.1
  · rw [hskip] at hskipped
    exact hskipped.2 seen rfl

theorem advances_atEnd : Advances [] atEnd := by
  refine advances_scanLayout.bind fun seen => ?_
  intro lx
  exact advances_peek?_bind (f := fun c => pure c.isNone) (fun c => (advances_pure _).at)
    (advances_pure _) { lx with layoutSeen := lx.layoutSeen || seen }

/-- **A token takes at least one character, unless it is a variable without a name**, and what is left
of the input is an end of it even if there is no token. -/
theorem takes_token (lx : Lexer) :
    Ends (token lx) (Taken lx.input) fun lx' => lx'.input <:+ lx.input := by
  rw [token_eq]
  refine Ends.bind (Q := fun _ lx' => Passed lx.input lx')
    (advances_scanLayout { lx with layoutSeen := false }) ?_
  intro seen lx' hpassed
  have hsuffix := hpassed.suffix
  refine Ends.imp (Q := Taken lx'.input) (E := fun lx'' => lx''.input <:+ lx'.input) ?_ ?_ ?_
  · obtain ⟨input, position, layoutSeen⟩ := lx'
    rcases input with _ | ⟨c | fault, rest⟩
    · exact List.suffix_refl _
    · have hinput : (Lexer.mk (.char c :: rest) position layoutSeen).input = .char c :: rest := rfl
      exact takes_tokenFrom _ hinput
    · exact List.suffix_cons _ _
  · intro t lx'' htaken
    have hle := hsuffix.length_le
    refine ⟨hpassed.trans htaken.1, ?_⟩
    have htaken' := htaken.2
    omega
  · intro lx'' hsuffix'
    exact List.IsSuffix.trans hsuffix' hsuffix

end Lexer

end Clausal

import Clausal.Lexer
import Clausal.Proofs.Correspondence

/-! # Tokens of a text that goes on

A token is found in the same way if more text follows, as long as it is not the end of the text that
ends it: the text that follows begins a new line, and no token goes on across the end of a line.  So
a lexer that has more to read corresponds to the lexer that has not (`matches_token`), except that
errors which mean that the text ended too early are excused.

The places that the two lexers have reached may differ, so errors correspond up to their places.
With nothing more to read, the same lemmas say that places do not matter.
-/

namespace Clausal

namespace ReadError

/-- The error without its place. -/
def unplaced : ReadError → ReadError
  | badEscape _ => badEscape {}
  | missingQuote _ => missingQuote {}
  | missingArgument _ => missingArgument {}
  | badCharacter c _ => badCharacter c {}
  | unexpected token _ => unexpected token {}
  | e => e

/-- Whether the error can mean that the text ended too early. -/
def isCut : ReadError → Bool
  | endOfText | missingQuote _ => true
  | _ => false

end ReadError

namespace Input

/-- Nothing, or text that begins with the end of a line. -/
def NextLine (more : Input) : Prop := more = [] ∨ ∃ rest, more = .char '\n' :: rest

theorem nextLine_nil : NextLine [] := .inl rfl

end Input

namespace Lexer

/-- The second lexer has more to read than the first, and is somewhere else. -/
structure Goes (more : Input) (lx lx' : Lexer) : Prop where
  /-- What there is more to read comes last. -/
  input : lx'.input = lx.input ++ more
  /-- They agree on layout. -/
  layoutSeen : lx'.layoutSeen = lx.layoutSeen

/-- How a lexer corresponds to one that has more to read. -/
def reading (more : Input) : Correspondence ReadError Lexer where
  excused e := more ≠ [] ∧ e.isCut = true
  errors e e' := e'.unplaced = e.unplaced
  states := Goes more

/-- The action does the same if there is more to read. -/
def Steady {α : Type} (more : Input) (m : Lexing α) : Prop :=
  ∀ ⦃lx lx'⦄, Goes more lx lx' → (reading more).Matches Eq (m lx) (m lx')

/-- The action does the same if there is more to read, unless the end of the text is reached. -/
def SteadyAhead {α : Type} (more : Input) (m : Lexing α) : Prop :=
  ∀ ⦃lx lx'⦄, lx.input ≠ [] → Goes more lx lx' → (reading more).Matches Eq (m lx) (m lx')

variable {α β : Type} {more : Input} {lx lx' : Lexer}

theorem Steady.ahead {m : Lexing α} (h : Steady more m) : SteadyAhead more m := fun _ _ _ => @h _ _

theorem Steady.bind {m : Lexing α} {f : α → Lexing β} (h : Steady more m)
    (hf : ∀ a, Steady more (f a)) : Steady more (m >>= f) := fun _ _ hst =>
  (h hst).bind fun a _ _ _ _ _ heq hst => heq ▸ hf a hst

theorem SteadyAhead.bind {m : Lexing α} {f : α → Lexing β} (h : SteadyAhead more m)
    (hf : ∀ a, Steady more (f a)) : SteadyAhead more (m >>= f) := fun _ _ hne hst =>
  (h hne hst).bind fun a _ _ _ _ _ heq hst => heq ▸ hf a hst

theorem Steady.map {m : Lexing α} (h : Steady more m) (f : α → β) : Steady more (f <$> m) :=
  fun _ _ hst => ((h hst).imp fun _ _ => congrArg f).map

theorem SteadyAhead.map {m : Lexing α} (h : SteadyAhead more m) (f : α → β) :
    SteadyAhead more (f <$> m) :=
  fun _ _ hne hst => ((h hne hst).imp fun _ _ => congrArg f).map

/-! ## Characters -/

theorem steady_pure (a : α) : Steady more (pure a : Lexing α) := fun _ _ h => ⟨rfl, h⟩

theorem steady_failHere {e : Position → ReadError} (he : ∀ p q, (e p).unplaced = (e q).unplaced) :
    Steady more (failHere e : Lexing α) :=
  fun _ _ h => Correspondence.matches_error (he _ _) h

theorem steady_putBack (c : Char) : Steady more (putBack c) :=
  fun _ _ h => ⟨rfl, by simp [h.input], h.layoutSeen⟩

theorem steady_skip (c : Char) : SteadyAhead more (skip c) :=
  fun _ _ hne h => ⟨rfl, by simp [h.input, List.tail_append_of_ne_nil hne], h.layoutSeen⟩

/-- Looking at the next character.  At the end of the first text the second has nothing, or the end
of a line, which has to make no difference. -/
theorem steady_peek?_bind (hmore : more.NextLine) {f : Option Char → Lexing α}
    (hsome : ∀ c, SteadyAhead more (f (some c))) (hnone : Steady more (f none))
    (hend : f (some '\n') = f none) : Steady more (peek? >>= f) := by
  intro ⟨input, position, layoutSeen⟩ ⟨input', position', layoutSeen'⟩ h
  obtain ⟨rfl, rfl⟩ : input' = input ++ more ∧ layoutSeen' = layoutSeen := ⟨h.input, h.layoutSeen⟩
  -- Only where the first text ends does it matter what follows.
  rcases input with _ | ⟨c | fault, rest⟩
  · rcases hmore with rfl | ⟨rest, rfl⟩
    · exact hnone h
    · show (reading _).Matches Eq (f none _) (f (some '\n') _)
      rw [hend]
      exact hnone h
  · exact hsome c (List.cons_ne_nil _ _) h
  · exact Correspondence.matches_error rfl ⟨rfl, rfl⟩

theorem lookahead_eq_ok {c : Char} (h : lookahead lx = .ok c lx') : lx' = lx ∧ lx.input ≠ [] := by
  obtain ⟨input, position, layoutSeen⟩ := lx
  rcases input with _ | ⟨d | fault, rest⟩
  · cases h
  · cases h
    exact ⟨rfl, List.cons_ne_nil _ _⟩
  · cases h

theorem steady_lookahead (hmore : more.NextLine) : Steady more lookahead := by
  intro ⟨input, position, layoutSeen⟩ ⟨input', position', layoutSeen'⟩ h
  obtain ⟨rfl, rfl⟩ : input' = input ++ more ∧ layoutSeen' = layoutSeen := ⟨h.input, h.layoutSeen⟩
  rcases input with _ | ⟨c | fault, rest⟩
  · rcases hmore with rfl | ⟨rest, rfl⟩
    · exact Correspondence.matches_error rfl h
    · exact Correspondence.matches_excused (C := reading _) ⟨List.cons_ne_nil _ _, rfl⟩ _
  · exact ⟨rfl, h⟩
  · exact Correspondence.matches_error rfl ⟨rfl, rfl⟩

/-- Looking at the next character, which there has to be. -/
theorem steady_lookahead_bind (hmore : more.NextLine) {f : Char → Lexing α}
    (hf : ∀ c, SteadyAhead more (f c)) : Steady more (lookahead >>= f) := fun _ _ h =>
  (steady_lookahead hmore h).bind fun c _ _ _ hs hs' heq _ => by
    obtain ⟨rfl, hne⟩ := lookahead_eq_ok hs
    obtain ⟨rfl, -⟩ := lookahead_eq_ok hs'
    exact heq ▸ hf c hne h

theorem steady_take (hmore : more.NextLine) : Steady more take :=
  steady_lookahead_bind hmore fun c => (steady_skip c).bind fun _ => steady_pure c

/-- A character other than the end of a line is passed in both texts or in neither. -/
theorem steady_skipIf (hmore : more.NextLine) {c : Char} (hc : c ≠ '\n') :
    Steady more (skipIf c) := by
  refine steady_peek?_bind hmore (fun d => ?_) ?_ ?_
  · split
    · exact (steady_skip c).bind fun _ => steady_pure true
    · exact (steady_pure false).ahead
  · exact steady_pure false
  · simp [hc.symm]

theorem spanChars_append (hmore : more.NextLine) {p : Char → Bool} (hp : p '\n' = false)
    (input : Input) :
    spanChars p (input ++ more) = ((spanChars p input).1, (spanChars p input).2 ++ more) := by
  fun_induction spanChars p input with
  | case1 c rest hc cs rest' heq ih =>
    rw [heq] at ih
    simp only [List.cons_append, spanChars, hc, ite_true, ih]
  | case2 c rest hc => simp [spanChars, hc]
  | case3 input hnot =>
    rcases input with _ | ⟨c | fault, rest⟩
    · rcases hmore with rfl | ⟨rest, rfl⟩
      · rfl
      · simp [spanChars, hp]
    · exact absurd rfl (hnot c rest)
    · rfl

theorem steady_takeWhile (hmore : more.NextLine) {p : Char → Bool} (hp : p '\n' = false) :
    Steady more (takeWhile p) := by
  intro lx lx' h
  simp only [takeWhile, h.input, spanChars_append hmore hp]
  rcases hspan : spanChars p lx.input with ⟨cs, _ | ⟨c | fault, rest⟩⟩
  · rcases hmore with rfl | ⟨rest, rfl⟩
    · exact ⟨rfl, rfl, h.layoutSeen⟩
    · exact ⟨rfl, rfl, h.layoutSeen⟩
  · exact ⟨rfl, rfl, h.layoutSeen⟩
  · exact Correspondence.matches_error rfl ⟨rfl, h.layoutSeen⟩

/-! ## Quoted text -/

theorem isDigitOf_newline (radix : Nat) : Text.isDigitOf radix '\n' = false := by
  simp [Text.isDigitOf, Text.digitValue?, Text.isDigit]

theorem steady_numericEscape (hmore : more.NextLine) (radix : Nat) :
    Steady more (numericEscape radix) := by
  refine (steady_takeWhile hmore (isDigitOf_newline radix)).bind fun digits =>
    steady_lookahead_bind hmore fun c => ?_
  split
  · refine (steady_skip c).bind fun _ => ?_
    split
    · exact steady_pure _
    · exact steady_failHere fun _ _ => rfl
  · exact (steady_failHere fun _ _ => rfl).ahead

theorem steady_escape (hmore : more.NextLine) (c : Char) : SteadyAhead more (escape c) := by
  unfold escape
  split
  · exact (steady_skip c).bind fun _ => steady_pure _
  · split
    · exact (steady_numericEscape hmore 8).ahead
    · split
      · exact (steady_skip c).bind fun _ => steady_numericEscape hmore 16
      · exact (steady_failHere fun _ _ => rfl).ahead

theorem steady_quotedPart (hmore : more.NextLine) {quote : Char} (hquote : quote ≠ '\n') :
    Steady more (quotedPart quote) := by
  refine (steady_take hmore).bind fun c => ?_
  split
  · exact (steady_skipIf hmore hquote).bind fun _ => steady_pure _
  · split
    · refine steady_lookahead_bind hmore fun d => ?_
      split
      · exact (steady_skip d).bind fun _ => steady_pure _
      · exact (steady_escape hmore d).map _
    · exact steady_pure _

theorem quotedParts_eq (quote : Char) (before : List Char) (lx : Lexer) :
    quotedParts quote before lx = match quotedPart quote lx with
      | .ok .close lx => .ok before.reverse lx
      | .ok .continuation lx => quotedParts quote before lx
      | .ok (.char c) lx => quotedParts quote (c :: before) lx
      | .error e lx => .error (if e.isEndOfText then .missingQuote lx.position else e) lx := by
  rw [quotedParts]
  split <;> rename_i heq <;> rw [heq]

theorem isEndOfText_eq {e e' : ReadError} (h : e'.unplaced = e.unplaced) :
    e'.isEndOfText = e.isEndOfText := by
  have hsame : ∀ e : ReadError, e.unplaced.isEndOfText = e.isEndOfText := fun e => by cases e <;> rfl
  rw [← hsame e', h, hsame]

/-- Where the quote at the end is missing the text may be cut. -/
theorem steady_quotedParts (hmore : more.NextLine) {quote : Char} (hquote : quote ≠ '\n')
    (before : List Char) : Steady more (quotedParts quote before) := by
  intro lx lx' h
  have hpart := steady_quotedPart hmore hquote h
  -- By recursion on the parts of the quoted text, each of which is read alike.
  fun_induction quotedParts quote before lx generalizing lx' with
  | case1 before lx lx₁ hlx =>
    obtain ⟨_, lx₁', hlx', rfl, hst⟩ := hpart.of_ok hlx
    rw [quotedParts_eq _ _ lx', hlx']
    exact ⟨rfl, hst⟩
  | case2 before lx lx₁ hlx ih =>
    obtain ⟨_, lx₁', hlx', rfl, hst⟩ := hpart.of_ok hlx
    rw [quotedParts_eq _ _ lx', hlx']
    exact ih hst (steady_quotedPart hmore hquote hst)
  | case3 before lx c lx₁ hlx ih =>
    obtain ⟨_, lx₁', hlx', rfl, hst⟩ := hpart.of_ok hlx
    rw [quotedParts_eq _ _ lx', hlx']
    exact ih hst (steady_quotedPart hmore hquote hst)
  | case4 before lx e lx₁ hlx =>
    rw [hlx] at hpart
    by_cases hexcused : (reading more).excused e
    · have hcut : (reading more).excused (if e.isEndOfText then .missingQuote lx₁.position else e) := by
        refine ⟨hexcused.1, ?_⟩
        split
        · rfl
        · exact hexcused.2
      exact Correspondence.matches_excused hcut _
    · rw [quotedParts_eq _ _ lx']
      rcases hlx' : quotedPart quote lx' with ⟨part, lx₁'⟩ | ⟨e', lx₁'⟩
      · rw [hlx'] at hpart
        exact absurd hpart hexcused
      · rw [hlx'] at hpart
        obtain ⟨he, hst⟩ := hpart.resolve_left hexcused
        refine Correspondence.matches_error ?_ hst
        show ReadError.unplaced (if e'.isEndOfText then _ else _) = ReadError.unplaced (if _ then _ else _)
        rw [isEndOfText_eq he]
        split
        · rfl
        · exact he

/-- Text in quotes. -/
theorem steady_quotedText (hmore : more.NextLine) {quote : Char} (hquote : quote ≠ '\n') :
    SteadyAhead more (quotedText quote) :=
  (steady_skip quote).bind fun _ => (steady_quotedParts hmore hquote []).map _

/-! ## Numbers -/

theorem isDigit_newline : Text.isDigit '\n' = false := by decide

theorem steady_charCodeToken (hmore : more.NextLine) : SteadyAhead more charCodeToken := by
  refine (steady_skip _).bind fun _ => (steady_take hmore).bind fun c => ?_
  split
  · exact steady_lookahead_bind hmore fun d =>
      (steady_escape hmore d).bind fun _ => steady_pure _
  · split
    · exact (steady_skipIf hmore (by decide)).bind fun _ => steady_pure _
    · exact steady_pure _

/-- The radix is one of those of numbers, and the letter is no digit. -/
theorem steady_radixToken (hmore : more.NextLine) (letter : Char) (radix : Nat) :
    SteadyAhead more (radixToken letter radix) := by
  refine (steady_skip letter).bind fun _ => steady_peek?_bind hmore (fun c => ?_) ?_ ?_
  · split
    · exact ((steady_takeWhile hmore (isDigitOf_newline radix)).map _).ahead
    · exact ((steady_putBack letter).bind fun _ => steady_pure _).ahead
  · exact (steady_putBack letter).bind fun _ => steady_pure _
  · simp [isDigitOf_newline]

theorem steady_exponentDigits (hmore : more.NextLine) (e : Char) (sign : Option Char) :
    Steady more (do
      if (← peek?).any Text.isDigit then
        let n := Text.digitsValue 10 (← takeWhile Text.isDigit)
        pure (if sign = some '-' then -n else n : Int)
      else
        sign.forM putBack
        putBack e
        pure 0) := by
  have hback : Steady more (do sign.forM putBack; putBack e; pure (0 : Int) : Lexing Int) := by
    cases sign with
    | none => exact (steady_putBack e).bind fun _ => steady_pure _
    | some c => exact (steady_putBack c).bind fun _ => (steady_putBack e).bind fun _ => steady_pure _
  refine steady_peek?_bind hmore (fun c => ?_) hback ?_
  · split
    · exact ((steady_takeWhile hmore isDigit_newline).bind fun _ => steady_pure _).ahead
    · exact hback.ahead
  · simp [isDigit_newline]

theorem steady_exponentPart (hmore : more.NextLine) : Steady more exponentPart := by
  refine steady_peek?_bind hmore (fun c => ?_) (steady_pure _) rfl
  cases (some c).filter fun c => c = 'e' || c = 'E' with
  | none => exact (steady_pure _).ahead
  | some e =>
    refine (steady_skip e).bind fun _ => steady_peek?_bind hmore (fun d => ?_) ?_ ?_
    · cases (some d).filter fun c => c = '-' || c = '+' with
      | none => exact (steady_exponentDigits hmore e none).ahead
      | some d' => exact (steady_skip d').bind fun _ => steady_exponentDigits hmore e (some d')
    · exact steady_exponentDigits hmore e none
    · rfl

theorem steady_decimalToken (hmore : more.NextLine) (first : Char) :
    Steady more (decimalToken first) := by
  refine (steady_takeWhile hmore isDigit_newline).bind fun digits =>
    (steady_skipIf hmore (by decide)).bind fun b => ?_
  split
  · have hback : Steady more (do putBack '.'; pure (integerToken 10 (first :: digits))) :=
      (steady_putBack '.').bind fun _ => steady_pure _
    refine steady_peek?_bind hmore (fun c => ?_) hback (by simp [isDigit_newline])
    split
    · exact ((steady_takeWhile hmore isDigit_newline).bind fun fraction =>
        (steady_exponentPart hmore).bind fun _ => steady_pure _).ahead
    · exact hback.ahead
  · exact steady_pure _

theorem steady_numberToken (hmore : more.NextLine) (c : Char) : SteadyAhead more (numberToken c) := by
  have hdecimal := steady_decimalToken hmore c
  refine (steady_skip c).bind fun _ => ?_
  by_cases hzero : c = '0'
  · simp only [if_pos hzero]
    refine steady_peek?_bind hmore (fun d => ?_) hdecimal ?_
    · split
      · exact steady_charCodeToken hmore
      · split
        · exact steady_radixToken hmore _ _
        · exact hdecimal.ahead
      · exact hdecimal.ahead
    · rfl
  · simp only [if_neg hzero]
    exact hdecimal

/-! ## Names and variables -/

theorem isAlnum_newline : Text.isAlnum '\n' = false := by decide

theorem isSymbol_newline : Text.isSymbol '\n' = false := by decide

theorem steady_nameToken (hmore : more.NextLine) (c : Char) : SteadyAhead more (nameToken c) := by
  unfold nameToken
  split
  · exact (steady_skip c).bind fun _ => ((steady_takeWhile hmore isAlnum_newline).map _).bind
      fun _ => steady_pure _
  · split
    · exact (((steady_takeWhile hmore isSymbol_newline).map _).bind fun _ => steady_pure _).ahead
    · split
      · exact (steady_skip c).bind fun _ => (steady_pure _).bind fun _ => steady_pure _
      · split
        · rename_i hquote
          exact (steady_quotedText hmore (hquote ▸ by decide)).bind fun _ => steady_pure _
        · exact ((steady_failHere fun _ _ => rfl).bind fun _ => steady_pure _).ahead

theorem steady_variableToken (hmore : more.NextLine) : Steady more variableToken :=
  (steady_takeWhile hmore isAlnum_newline).bind fun _ => steady_pure _

/-- The end of the text and the end of a line both make a point a full stop. -/
theorem steady_stopToken (hmore : more.NextLine) : SteadyAhead more stopToken := by
  refine (steady_skip _).bind fun _ => steady_peek?_bind hmore (fun c => ?_) (steady_pure _) rfl
  have hname : Steady more (do putBack '.'; nameToken '.') := fun lx lx' h =>
    (steady_putBack '.' h).bind fun _ _ s s' hs _ _ hst => by
      cases hs
      exact steady_nameToken hmore '.' (List.cons_ne_nil _ _) hst
  by_cases hc : (Text.isLayout c || c = '%') = true
  · simp only [if_pos hc]
    exact (steady_pure _).ahead
  · simp only [if_neg hc]
    exact hname.ahead

/-! ## Layout -/

/-- How skipping layout in a text compares with skipping it where there is more to read. -/
inductive SameLayout (more : Input) : Except ReadError Bool × Position × Input →
    Except ReadError Bool × Position × Input → Prop
  /-- Something comes after the layout. -/
  | stays (b : Bool) (p p' : Position) (rest : Input) (h : rest ≠ []) :
    SameLayout more (.ok b, p, rest) (.ok b, p', rest ++ more)
  /-- Nothing comes after it, and there is no more to read. -/
  | ends (b : Bool) (p p' : Position) (h : more = []) :
    SameLayout more (.ok b, p, []) (.ok b, p', [])
  /-- Nothing comes after it, and layout goes on with the end of a line. -/
  | goesOn (b : Bool) (p p' : Position) {rest : Input} (h : more = .char '\n' :: rest) :
    SameLayout more (.ok b, p, []) (skipLayout .none true p' rest)
  /-- It cannot be read. -/
  | fails (e : ReadError) (p p' : Position) (rest : Input) :
    SameLayout more (.error e, p, rest) (.error e, p', rest ++ more)
  /-- The text ends within a comment. -/
  | cut (e : ReadError) (p : Position) (rest : Input)
    (r : Except ReadError Bool × Position × Input) (h : more ≠ []) (he : e.isCut = true) :
    SameLayout more (.error e, p, rest) r

theorem skipLayout_char (seen : Bool) (p : Position) (c : Char) (rest : Input) :
    skipLayout .none seen p (.char c :: rest) =
      if Text.isLayout c then skipLayout .none true (p.next c) rest
      else if c = '%' then skipLayout .line true (p.next c) rest
      else if c = '/' then
        match rest with
        | .char '*' :: rest => skipLayout (.block false) true ((p.next c).next '*') rest
        | .fault fault :: rest => (.error (.input fault), p.next c, rest)
        | _ => (.ok seen, p.next c, .char c :: rest)
      else (.ok seen, p, .char c :: rest) :=
  skipLayout.eq_def _ _ _ _

theorem sameLayout_skipLayout (hmore : more.NextLine) (around : Surrounding) (seen : Bool)
    (p p' : Position) (input : Input) :
    SameLayout more (skipLayout around seen p input) (skipLayout around seen p' (input ++ more)) := by
  fun_induction skipLayout around seen p input generalizing p' with
  | case1 seen p star =>
    rcases hmore with rfl | ⟨rest, rfl⟩
    · exact .fails _ _ _ []
    · exact .cut _ _ _ _ (List.cons_ne_nil _ _) rfl
  | case2 around seen p hnot =>
    rcases hmore with rfl | ⟨rest, rfl⟩
    · cases around with
      | none => exact .ends _ _ _ rfl
      | line => exact .ends _ _ _ rfl
      | block star => exact absurd rfl (hnot star)
    · cases around with
      | none =>
        rw [List.nil_append, skipLayout_char, if_pos (by decide)]
        exact .goesOn _ _ _ rfl
      | line => exact .goesOn _ _ _ rfl
      | block star => exact absurd rfl (hnot star)
  | case3 around seen p fault rest =>
    rw [List.cons_append, skipLayout.eq_def]
    exact .fails _ _ _ rest
  | case4 seen p c rest ih => exact ih _
  | case5 seen p c rest star ih => exact ih _
  | case6 seen p c rest hlayout ih =>
    rw [List.cons_append, skipLayout_char, if_pos hlayout]
    exact ih _
  | case7 seen p rest hlayout ih =>
    rw [List.cons_append, skipLayout_char, if_neg hlayout, if_pos rfl]
    exact ih _
  | case8 seen p rest hlayout hc ih =>
    rw [List.cons_append, skipLayout_char, if_neg hlayout, if_neg hc, if_pos rfl]
    exact ih _
  | case9 seen p fault rest hlayout hc =>
    rw [List.cons_append, skipLayout_char, if_neg hlayout, if_neg hc, if_pos rfl]
    exact .fails _ _ _ rest
  | case10 seen p rest hstar hfault hlayout hc =>
    rw [List.cons_append, skipLayout_char, if_neg hlayout, if_neg hc, if_pos rfl]
    split
    · rename_i rest' heq
      rcases rest with _ | ⟨i, rest⟩
      · rcases hmore with rfl | ⟨more, rfl⟩ <;> cases heq
      · exact absurd (List.cons.inj heq).1 (fun h => hstar rest (h ▸ rfl))
    · rename_i fault rest' heq
      rcases rest with _ | ⟨i, rest⟩
      · rcases hmore with rfl | ⟨more, rfl⟩ <;> cases heq
      · exact absurd (List.cons.inj heq).1 (fun h => hfault fault rest (h ▸ rfl))
    · exact .stays _ _ _ _ (List.cons_ne_nil _ rest)
  | case11 seen p c rest hlayout hc hc' =>
    rw [List.cons_append, skipLayout_char, if_neg hlayout, if_neg hc, if_neg hc']
    exact .stays _ _ _ _ (List.cons_ne_nil _ rest)

/-! ## Tokens -/

/-- The rest of a token of which `c` is the next character, where `afterLayout` says whether there is
layout before it. -/
def tokenFrom (afterLayout : Bool) (c : Char) : Lexing Token :=
  if Text.isVariableStart c then variableToken
  else
    match punctuation? c afterLayout with
    | some t => do
      skip c
      pure t
    | none =>
      if c = '"' then .quoted <$> quotedText c
      else if c = '\x60' then .backQuoted <$> quotedText c
      else if c = '.' then stopToken
      else if Text.isDigit c then numberToken c
      else nameToken c

/-- The next token, where `before` says whether layout was skipped before. -/
def tokenAfter (before : Bool) : Lexing Token := do
  let seen ← scanLayout
  let c ← lookahead
  tokenFrom (before || seen) c

theorem token_eq (lx : Lexer) : token lx = tokenAfter lx.layoutSeen { lx with layoutSeen := false } :=
  rfl

/-- The tokens are the same, or both are opening brackets. -/
def SameToken (t t' : Token) : Prop :=
  t' = t ∨ ((t = .openGroup ∨ t = .openArgs) ∧ (t' = .openGroup ∨ t' = .openArgs))

theorem steady_tokenFrom (hmore : more.NextLine) (afterLayout : Bool) (c : Char) :
    SteadyAhead more (tokenFrom afterLayout c) := by
  unfold tokenFrom
  split
  · exact (steady_variableToken hmore).ahead
  · split
    · exact (steady_skip c).bind fun _ => steady_pure _
    · split
      · rename_i hquote
        exact (steady_quotedText hmore (hquote ▸ by decide)).map _
      · split
        · rename_i hquote
          exact (steady_quotedText hmore (hquote ▸ by decide)).map _
        · split
          · exact steady_stopToken hmore
          · split
            · exact steady_numberToken hmore c
            · exact steady_nameToken hmore c

/-- Layout before it matters only to an opening bracket. -/
theorem matches_tokenFrom (hmore : more.NextLine) (b b' : Bool) (c : Char) (hne : lx.input ≠ [])
    (h : Goes more lx lx') :
    (reading more).Matches SameToken (tokenFrom b c lx) (tokenFrom b' c lx') := by
  by_cases hc : c = '('
  · subst hc
    refine (steady_skip '(' hne h).bind fun _ _ _ _ _ _ _ hst => ⟨.inr ⟨?_, ?_⟩, hst⟩
    · cases b <;> simp
    · cases b' <;> simp
  · have hsame : tokenFrom b' c = tokenFrom b c := by
      have hpunctuation : punctuation? c b' = punctuation? c b := by
        unfold punctuation?
        split <;> first | rfl | exact absurd rfl hc
      rw [tokenFrom, hpunctuation, tokenFrom]
    rw [hsame]
    exact (steady_tokenFrom hmore b c hne h).imp fun _ _ heq => .inl heq.symm

theorem matches_tokenAfter (hmore : more.NextLine) {Q : Token → Token → Prop} {b b' : Bool}
    (hQ : ∀ (seen : Bool) c lx lx', lx.input ≠ [] → Goes more lx lx' →
      (reading more).Matches Q (tokenFrom (b || seen) c lx) (tokenFrom (b' || seen) c lx'))
    (h : Goes more lx lx') : (reading more).Matches Q (tokenAfter b lx) (tokenAfter b' lx') := by
  have hlayout := sameLayout_skipLayout hmore .none false lx.position lx'.position lx.input
  rw [← h.input] at hlayout
  show (reading more).Matches Q (EStateM.bind scanLayout _ lx) (EStateM.bind scanLayout _ lx')
  simp only [EStateM.bind, scanLayout]
  generalize skipLayout .none false lx.position lx.input = r at hlayout
  generalize skipLayout .none false lx'.position lx'.input = r' at hlayout
  cases hlayout with
  | stays seen p p' rest hrest =>
    have hst : Goes more { lx with position := p, input := rest }
        { lx' with position := p', input := rest ++ more } := ⟨rfl, h.layoutSeen⟩
    refine (steady_lookahead hmore hst).bind fun c _ _ _ hs hs' heq _ => ?_
    obtain ⟨rfl, -⟩ := lookahead_eq_ok hs
    obtain ⟨rfl, -⟩ := lookahead_eq_ok hs'
    exact heq ▸ hQ seen c _ _ hrest hst
  | ends seen p p' hnil =>
    subst hnil
    exact Correspondence.matches_error rfl ⟨rfl, h.layoutSeen⟩
  | goesOn seen p p' hline =>
    exact Correspondence.matches_excused (C := reading more) ⟨hline ▸ List.cons_ne_nil _ _, rfl⟩ _
  | fails e p p' rest => exact Correspondence.matches_error rfl ⟨rfl, h.layoutSeen⟩
  | cut e p rest r' hne he => exact Correspondence.matches_excused (C := reading more) ⟨hne, he⟩ _

/-- **A token is the same if there is more to read.** -/
theorem steady_token (hmore : more.NextLine) : Steady more token := by
  intro lx lx' h
  rw [token_eq, token_eq, h.layoutSeen]
  exact matches_tokenAfter hmore (fun _ _ _ _ hne hst => steady_tokenFrom hmore _ _ hne hst)
    ⟨h.input, rfl⟩

/-- Whether there was layout before does not matter, except to an opening bracket. -/
theorem matches_token (hmore : more.NextLine) (h : lx'.input = lx.input ++ more) :
    (reading more).Matches SameToken (token lx) (token lx') := by
  rw [token_eq, token_eq]
  exact matches_tokenAfter hmore (fun _ _ _ _ hne hst => matches_tokenFrom hmore _ _ _ hne hst)
    ⟨h, rfl⟩

end Lexer

end Clausal

import Mathlib.Data.List.Count
import Clausal.TermSource
import Clausal.Proofs.Syntax.Advance

/-! # The line of an error

Lines are counted where the lexer passes a character.  Some of these are put back and passed again, so
the column of a position can be too high, but no end of line is ever put back: the lines of the place
reached and the ends of line that remain are as many together before and after every action of the lexer,
whether it succeeds or not (`Lexer.Counts`).  An error that has a place has the place that the lexer has
reached when it is met.

Reading a term does nothing to the lexer but take tokens, so all of this holds of it as well
(`Reading.Tracks`).  Only the shell's line at the start of a source is passed over without the lexer,
and its end is not counted (`TermSource.line_of_error`).
-/

namespace Clausal

/-- How many ends of line there are. -/
def Input.newlines (input : Input) : Nat := input.count (.char '\n')

namespace Input

theorem newlines_append (input rest : Input) : newlines (input ++ rest) = newlines input + newlines rest :=
  List.count_append

theorem newlines_char (c : Char) (rest : Input) :
    newlines (.char c :: rest) = newlines rest + if c = '\n' then 1 else 0 := by
  rw [newlines, List.count_cons]
  by_cases h : c = '\n' <;> simp [h, newlines]

theorem newlines_fault (fault : InputFault) (rest : Input) :
    newlines (.fault fault :: rest) = newlines rest := by
  have hne : Item.fault fault ≠ .char '\n' := nofun
  rw [newlines, List.count_cons_of_ne hne, newlines]

end Input

theorem Position.next_line (p : Position) (c : Char) :
    (p.next c).line = p.line + if c = '\n' then 1 else 0 := by
  rw [next]
  split <;> rfl

theorem Position.after_line (p : Position) (cs : List Char) :
    (p.after cs).line = p.line + Input.newlines (cs.map .char) := by
  induction cs generalizing p with
  | nil => rfl
  | cons c cs ih =>
    show ((p.next c).after cs).line = _
    rw [ih, next_line, List.map_cons, Input.newlines_char]
    omega

/-- The place that the error names is that of the lexer. -/
def ReadError.LocatedAt (e : ReadError) (lx : Lexer) : Prop := ∀ p, e.position? = some p → p = lx.position

theorem ReadError.locatedAt_of_none {e : ReadError} (h : e.position? = none) (lx : Lexer) :
    e.LocatedAt lx := by
  intro p hp
  rw [h] at hp
  cases hp

/-- The error can be met by a lexer, which knows nothing of placeholders, at the place that it has
reached. -/
structure ReadError.MetBy (e : ReadError) (lx : Lexer) : Prop where
  /-- The place. -/
  located : e.LocatedAt lx
  /-- No argument is missing. -/
  ne : ∀ p, e ≠ .missingArgument p

theorem ReadError.metBy_of_none {e : ReadError} (h : e.position? = none) (lx : Lexer) : e.MetBy lx := by
  refine ⟨locatedAt_of_none h lx, ?_⟩
  rintro p rfl
  cases h

namespace Lexer

variable {α β : Type} {c : Char} {lx : Lexer}

/-- The lines up to the place reached and those that remain. -/
def lines (lx : Lexer) : Nat := lx.position.line + lx.input.newlines

/-- The result leaves `n` lines in all, and an error names the place reached. -/
def Counted (n : Nat) : EStateM.Result ReadError Lexer α → Prop
  | .ok _ lx => lx.lines = n
  | .error e lx => lx.lines = n ∧ e.MetBy lx

/-- The action counts every end of line that it passes. -/
def Counts (m : Lexing α) : Prop := ∀ lx, Counted lx.lines (m lx)

/-- The same, if `c` is the next character. -/
def CountsAt (c : Char) (m : Lexing α) : Prop :=
  ∀ lx rest, lx.input = .char c :: rest → Counted lx.lines (m lx)

/-! ## Steps -/

theorem Counts.at {m : Lexing α} (h : Counts m) : CountsAt c m := fun lx _ _ => h lx

theorem Counted.bind {n : Nat} {m : Lexing α} {f : α → Lexing β} (hm : Counted n (m lx))
    (hf : ∀ a, Counts (f a)) : Counted n ((m >>= f) lx) := by
  show Counted n (EStateM.bind m f lx)
  rw [EStateM.bind]
  rcases hresult : m lx with ⟨a, lx'⟩ | ⟨e, lx'⟩
  · rw [hresult] at hm
    obtain rfl : lx'.lines = n := hm
    exact hf a lx'
  · rw [hresult] at hm
    exact hm

theorem Counts.bind {m : Lexing α} {f : α → Lexing β} (hm : Counts m) (hf : ∀ a, Counts (f a)) :
    Counts (m >>= f) :=
  fun lx => (hm lx).bind hf

theorem CountsAt.bind {m : Lexing α} {f : α → Lexing β} (hm : CountsAt c m) (hf : ∀ a, Counts (f a)) :
    CountsAt c (m >>= f) :=
  fun lx rest hc => (hm lx rest hc).bind hf

theorem counts_pure (a : α) : Counts (pure a) := fun _ => rfl

theorem Counts.map {m : Lexing α} (h : Counts m) (f : α → β) : Counts (f <$> m) := by
  rw [map_eq_pure_bind]
  exact h.bind fun a => counts_pure (f a)

theorem CountsAt.map {m : Lexing α} (h : CountsAt c m) (f : α → β) : CountsAt c (f <$> m) := by
  rw [map_eq_pure_bind]
  exact h.bind fun a => counts_pure (f a)

theorem counts_throw {e : ReadError} (h : e.position? = none) : Counts (throw e : Lexing α) :=
  fun lx => ⟨rfl, ReadError.metBy_of_none h lx⟩

theorem counts_failHere {e : Position → ReadError} (h : ∀ p, (e p).position? = some p)
    (hne : ∀ p q, e p ≠ .missingArgument q) : Counts (failHere e : Lexing α) := by
  intro lx
  refine ⟨rfl, ?_, hne lx.position⟩
  intro p hp
  rw [h lx.position] at hp
  exact (Option.some.inj hp).symm

/-- Looking at the next character, if there is one. -/
theorem counts_peek?_bind {f : Option Char → Lexing α} (hsome : ∀ c, CountsAt c (f (some c)))
    (hnone : Counts (f none)) : Counts (peek? >>= f) := by
  intro ⟨input, position, layoutSeen⟩
  rcases input with _ | ⟨c | fault, rest⟩
  · exact hnone _
  · exact hsome c _ rest rfl
  · refine ⟨?_, ReadError.metBy_of_none rfl _⟩
    rw [lines, lines, Input.newlines_fault]

theorem counts_lookahead_bind {f : Char → Lexing α} (h : ∀ c, CountsAt c (f c)) :
    Counts (lookahead >>= f) := by
  rw [lookahead, bind_assoc]
  exact counts_peek?_bind h (counts_throw rfl)

/-- Passing the next character counts it if it ends a line. -/
theorem countsAt_skip (c : Char) : CountsAt c (skip c) := by
  intro lx rest hc
  show (lx.position.next c).line + Input.newlines lx.input.tail = lx.position.line + lx.input.newlines
  rw [hc, List.tail_cons, Input.newlines_char, Position.next_line]
  omega

/-- What is put back ends no line. -/
theorem counts_putBack_bind {f : Unit → Lexing α} (hc : c ≠ '\n') (h : CountsAt c (f ())) :
    Counts (putBack c >>= f) := by
  intro lx
  have hrest := h { lx with input := .char c :: lx.input } lx.input rfl
  have hlines : ({ lx with input := .char c :: lx.input } : Lexer).lines = lx.lines := by
    rw [lines, lines, Input.newlines_char, if_neg hc, Nat.add_zero]
  rw [hlines] at hrest
  exact hrest

theorem counts_take : Counts take :=
  counts_lookahead_bind fun c => (countsAt_skip c).bind fun _ => counts_pure c

theorem counts_skipIf (c : Char) : Counts (skipIf c) := by
  refine counts_peek?_bind ?_ ?_
  · intro d
    split
    · rename_i heq
      cases heq
      exact (countsAt_skip c).bind fun _ => counts_pure true
    · exact (counts_pure false).at
  · exact counts_pure false

theorem counts_takeWhile (p : Char → Bool) : Counts (takeWhile p) := by
  intro lx
  have heq := eq_append_spanChars p lx.input
  rw [takeWhile]
  generalize spanChars p lx.input = r at heq ⊢
  obtain ⟨cs, rest⟩ := r
  have hlines : ∀ input : Input, input.newlines = rest.newlines →
      (Lexer.mk input (lx.position.after cs) lx.layoutSeen).lines = lx.lines := by
    intro input hinput
    rw [lines, lines, Position.after_line, hinput, heq, Input.newlines_append]
    exact Nat.add_assoc _ _ _
  dsimp only
  split
  · rename_i fault rest'
    exact ⟨hlines rest' (Input.newlines_fault fault rest').symm, ReadError.metBy_of_none rfl _⟩
  · exact hlines rest rfl

/-! ## Quoted text -/

theorem counts_numericEscape (radix : Nat) : Counts (numericEscape radix) := by
  refine (counts_takeWhile _).bind fun digits => counts_lookahead_bind fun c => ?_
  split
  · refine (countsAt_skip c).bind fun _ => ?_
    split
    · exact counts_pure _
    · exact counts_failHere (fun _ => rfl) fun _ _ h => by cases h
  · exact (counts_failHere (fun _ => rfl) fun _ _ h => by cases h).at

theorem countsAt_escape (c : Char) : CountsAt c (escape c) := by
  unfold escape
  split
  · exact (countsAt_skip c).bind fun _ => counts_pure _
  · split
    · exact (counts_numericEscape 8).at
    · split
      · exact (countsAt_skip c).bind fun _ => counts_numericEscape 16
      · exact (counts_failHere (fun _ => rfl) fun _ _ h => by cases h).at

theorem counts_quotedPart (quote : Char) : Counts (quotedPart quote) := by
  refine counts_take.bind fun c => ?_
  split
  · exact (counts_skipIf quote).bind fun _ => counts_pure _
  · split
    · refine counts_lookahead_bind fun d => ?_
      split
      · exact (countsAt_skip d).bind fun _ => counts_pure _
      · exact (countsAt_escape d).map _
    · exact counts_pure _

theorem counts_quotedParts (quote : Char) (before : List Char) : Counts (quotedParts quote before) := by
  intro lx
  have hpart := counts_quotedPart quote lx
  fun_induction quotedParts quote before lx with
  | case1 before lx lx₁ hok =>
    rw [hok] at hpart
    exact hpart
  | case2 before lx lx₁ hok ih =>
    rw [hok] at hpart
    exact (show lx₁.lines = lx.lines from hpart) ▸ ih (counts_quotedPart quote lx₁)
  | case3 before lx c lx₁ hok ih =>
    rw [hok] at hpart
    exact (show lx₁.lines = lx.lines from hpart) ▸ ih (counts_quotedPart quote lx₁)
  | case4 before lx e lx₁ herror =>
    rw [herror] at hpart
    refine ⟨hpart.1, ?_⟩
    split
    · refine ⟨?_, fun p hp => by cases hp⟩
      intro p hp
      exact (Option.some.inj hp).symm
    · exact hpart.2

theorem countsAt_quotedText (quote : Char) : CountsAt quote (quotedText quote) :=
  (countsAt_skip quote).bind fun _ => (counts_quotedParts quote []).map _

/-! ## Numbers -/

theorem countsAt_charCodeToken : CountsAt '\x27' charCodeToken := by
  refine (countsAt_skip '\x27').bind fun _ => counts_take.bind fun c => ?_
  dsimp only
  split
  · refine counts_lookahead_bind fun d => ?_
    exact (countsAt_escape d).bind fun _ => counts_pure _
  · split
    · exact (counts_skipIf _).bind fun _ => counts_pure _
    · exact counts_pure _

theorem countsAt_radixToken {letter : Char} (hletter : letter ≠ '\n') (radix : Nat) :
    CountsAt letter (radixToken letter radix) := by
  have hback : Counts (putBack letter >>= fun _ => pure (integerToken 10 ['0'])) :=
    counts_putBack_bind hletter (counts_pure _).at
  refine (countsAt_skip letter).bind fun _ => counts_peek?_bind (fun d => Counts.at ?_) ?_
  · split
    · exact (counts_takeWhile _).map _
    · exact hback
  · exact hback

theorem counts_exponentPart : Counts exponentPart := by
  have hdigits : ∀ {e : Char} {sign : Option Char}, e ≠ '\n' → (∀ c ∈ sign, c ≠ '\n') →
      Counts (do
      if (← peek?).any Text.isDigit then
        let n := Text.digitsValue 10 (← takeWhile Text.isDigit)
        pure (if sign = some '-' then -n else n : Int)
      else
        sign.forM putBack
        putBack e
        pure 0) := by
    intro e sign he hsign
    have hback : Counts (do
        sign.forM putBack
        putBack e
        pure (0 : Int)) := by
      have hlast : Counts (putBack e >>= fun _ => (pure 0 : Lexing Int)) :=
        counts_putBack_bind he (counts_pure 0).at
      cases sign with
      | none => exact hlast
      | some d =>
        exact counts_putBack_bind (f := fun _ => putBack e >>= fun _ => pure 0) (hsign d rfl) hlast.at
    refine counts_peek?_bind (fun d => Counts.at ?_) hback
    split
    · exact (counts_takeWhile _).bind fun _ => counts_pure _
    · exact hback
  have hnone : ∀ c ∈ (none : Option Char), c ≠ '\n' := by
    intro c hc
    cases hc
  refine counts_peek?_bind (fun c => ?_) (counts_pure _)
  by_cases hc : (c = 'e' || c = 'E') = true
  · rw [Option.filter_some, if_pos hc]
    have hne : c ≠ '\n' := by
      rintro rfl
      cases hc
    refine (countsAt_skip c).bind fun _ => counts_peek?_bind (fun d => ?_) (hdigits hne hnone)
    by_cases hd : (d = '-' || d = '+') = true
    · rw [Option.filter_some, if_pos hd]
      have hsign : ∀ c' ∈ some d, c' ≠ '\n' := by
        rintro c' hc' rfl
        cases hc'
        exact absurd hd (by decide)
      exact (countsAt_skip d).bind fun _ => hdigits hne hsign
    · rw [Option.filter_some, if_neg hd]
      exact (hdigits hne hnone).at
  · rw [Option.filter_some, if_neg hc]
    exact (counts_pure _).at

theorem counts_decimalToken (first : Char) : Counts (decimalToken first) := by
  refine (counts_takeWhile _).bind fun digits => (counts_skipIf '.').bind fun point => ?_
  have hback : Counts (putBack '.' >>= fun _ => pure (integerToken 10 (first :: digits))) :=
    counts_putBack_bind (by decide) (counts_pure _).at
  split
  · refine counts_peek?_bind (fun d => Counts.at ?_) hback
    split
    · exact (counts_takeWhile _).bind fun _ => counts_exponentPart.bind fun _ => counts_pure _
    · exact hback
  · exact counts_pure _

theorem ne_newline_of_radix? {c : Char} {radix : Nat} (h : radix? c = some radix) : c ≠ '\n' := by
  rintro rfl
  cases h

theorem countsAt_numberToken (c : Char) : CountsAt c (numberToken c) := by
  have hdecimal := counts_decimalToken c
  refine (countsAt_skip c).bind fun _ => ?_
  by_cases hzero : c = '0'
  · simp only [if_pos hzero]
    refine counts_peek?_bind (fun d => ?_) hdecimal
    split
    · rename_i heq
      cases heq
      exact countsAt_charCodeToken
    · rename_i heq
      cases heq
      split
      · rename_i hradix
        exact countsAt_radixToken (ne_newline_of_radix? hradix) _
      · exact hdecimal.at
    · exact hdecimal.at
  · simp only [if_neg hzero]
    exact hdecimal

/-! ## Tokens -/

theorem countsAt_nameToken (c : Char) : CountsAt c (nameToken c) := by
  have hname : ∀ name : String, Counts (pure (.literal (.atom name)) : Lexing Token) :=
    fun name => counts_pure _
  unfold nameToken
  dsimp only
  split
  · refine (countsAt_skip c).bind fun _ => ?_
    exact ((counts_takeWhile _).map _).bind hname
  · split
    · exact (((counts_takeWhile _).map _).bind hname).at
    · split
      · exact (countsAt_skip c).bind fun _ => hname _
      · split
        · rename_i hquote
          rw [hquote]
          exact (countsAt_quotedText _).bind hname
        · exact ((counts_failHere (fun _ => rfl) fun _ _ h => by cases h).bind hname).at

theorem countsAt_stopToken : CountsAt '.' stopToken := by
  refine (countsAt_skip '.').bind fun _ => counts_peek?_bind (fun c => Counts.at ?_) (counts_pure _)
  dsimp only
  split
  · exact counts_pure _
  · exact counts_putBack_bind (by decide) (countsAt_nameToken '.')

theorem countsAt_tokenFrom (afterLayout : Bool) (c : Char) : CountsAt c (tokenFrom afterLayout c) := by
  unfold tokenFrom
  split
  · exact ((counts_takeWhile _).bind fun _ => counts_pure _).at
  rcases punctuation? c afterLayout with _ | t <;> dsimp only
  · split
    · exact (countsAt_quotedText c).map _
    split
    · exact (countsAt_quotedText c).map _
    split
    · rename_i hpoint
      exact hpoint ▸ countsAt_stopToken
    split
    · exact countsAt_numberToken c
    · exact countsAt_nameToken c
  · exact (countsAt_skip c).bind fun _ => counts_pure t

/-! ## Layout -/

/-- Skipping layout at `p` has counted the ends of line, and an error of it has no place. -/
def SkipCounts (p : Position) (input : Input) (r : Except ReadError Bool × Position × Input) : Prop :=
  r.2.1.line + r.2.2.newlines = p.line + input.newlines ∧ ∀ e, r.1 = .error e → e.position? = none

theorem skipCounts_ok (seen : Bool) (p : Position) (input : Input) :
    SkipCounts p input (.ok seen, p, input) :=
  ⟨rfl, nofun⟩

theorem SkipCounts.cons {p : Position} {input : Input} {r : Except ReadError Bool × Position × Input}
    (h : SkipCounts (p.next c) input r) : SkipCounts p (.char c :: input) r := by
  refine ⟨?_, h.2⟩
  rw [h.1, Position.next_line, Input.newlines_char]
  omega

theorem skipCounts_fault (fault : InputFault) (p : Position) (rest : Input) :
    SkipCounts p (.fault fault :: rest) (.error (.input fault), p, rest) := by
  refine ⟨?_, ?_⟩
  · rw [Input.newlines_fault]
  · intro e he
    cases he
    rfl

theorem skipCounts_skipLayout (around : Surrounding) (seen : Bool) (p : Position) (input : Input) :
    SkipCounts p input (skipLayout around seen p input) := by
  fun_induction skipLayout around seen p input with
  | case1 =>
    refine ⟨rfl, ?_⟩
    intro e he
    cases he
    rfl
  | case2 => exact skipCounts_ok _ _ _
  | case3 => exact skipCounts_fault _ _ _
  | case4 seen p c rest ih => exact ih.cons
  | case5 seen p c rest star ih => exact ih.cons
  | case6 seen p c rest hlayout ih => exact ih.cons
  | case7 seen p rest hlayout ih => exact ih.cons
  | case8 seen p rest hlayout hslash ih => exact ih.cons.cons
  | case9 => exact (skipCounts_fault _ _ _).cons
  | case10 => exact ⟨rfl, fun e he => by cases he⟩
  | case11 => exact skipCounts_ok _ _ _

theorem counts_scanLayout : Counts scanLayout := by
  intro lx
  have hskip := skipCounts_skipLayout .none false lx.position lx.input
  rw [scanLayout]
  rcases hresult : skipLayout .none false lx.position lx.input with ⟨e | seen, p, rest⟩
  · rw [hresult] at hskip
    exact ⟨hskip.1, ReadError.metBy_of_none (hskip.2 e rfl) _⟩
  · rw [hresult] at hskip
    exact hskip.1

theorem counts_atEnd : Counts atEnd := by
  refine counts_scanLayout.bind fun seen => ?_
  intro lx
  exact counts_peek?_bind (f := fun c => pure c.isNone) (fun c => (counts_pure _).at) (counts_pure _)
    { lx with layoutSeen := lx.layoutSeen || seen }

/-- **A token counts every end of line that it passes.** -/
theorem counts_token : Counts token := by
  intro lx
  rw [token_eq]
  refine Counts.bind (m := scanLayout) counts_scanLayout (fun seen => ?_)
    { lx with layoutSeen := false }
  exact counts_lookahead_bind fun c => countsAt_tokenFrom _ c

/-- The second state comes after the first: what is left is an end of what was left, and the ends of
line between are counted. -/
structure Reaches (lx lx' : Lexer) : Prop where
  /-- What is left. -/
  suffix : lx'.input <:+ lx.input
  /-- The lines in all. -/
  lines : lx'.lines = lx.lines

theorem Reaches.refl (lx : Lexer) : lx.Reaches lx := ⟨List.suffix_refl _, rfl⟩

theorem Reaches.trans {lx' lx'' : Lexer} (h : lx.Reaches lx') (h' : lx'.Reaches lx'') : lx.Reaches lx'' :=
  ⟨h'.suffix.trans h.suffix, h'.lines.trans h.lines⟩

end Lexer

namespace Reading

variable {α β : Type} {lx : Lexer}

/-- The lexer goes on from `lx`, and an error names the place that it has reached. -/
def Tracked (lx : Lexer) : EStateM.Result ReadError Reading α → Prop
  | .ok _ r => lx.Reaches r.reader.lexer
  | .error e r => lx.Reaches r.reader.lexer ∧ e.LocatedAt r.reader.lexer

/-- Whatever the action does to the lexer is to take tokens. -/
def Tracks (m : ReadM α) : Prop := ∀ r, Tracked r.reader.lexer (m r)

/-! ## Steps of reading -/

theorem Tracks.bind {m : ReadM α} {f : α → ReadM β} (hm : Tracks m) (hf : ∀ a, Tracks (f a)) :
    Tracks (m >>= f) := by
  intro r
  have hfirst := hm r
  show Tracked r.reader.lexer (EStateM.bind m f r)
  rw [EStateM.bind]
  rcases hresult : m r with ⟨a, r'⟩ | ⟨e, r'⟩ <;> rw [hresult] at hfirst
  · have hreaches : r.reader.lexer.Reaches r'.reader.lexer := hfirst
    have hrest := hf a r'
    show Tracked r.reader.lexer (f a r')
    rcases hresult' : f a r' with ⟨b, r''⟩ | ⟨e, r''⟩ <;> rw [hresult'] at hrest
    · exact hreaches.trans hrest
    · exact ⟨hreaches.trans hrest.1, hrest.2⟩
  · exact hfirst

theorem tracks_pure (a : α) : Tracks (pure a) := fun r => .refl r.reader.lexer

theorem tracks_get {f : Reading → ReadM α} (h : ∀ r, Tracks (f r)) : Tracks (get >>= f) :=
  fun r => h r r

/-- A change that leaves the lexer alone. -/
theorem tracks_modify_bind {g : Reading → Reading} {f : PUnit → ReadM α}
    (h : ∀ r, (g r).reader.lexer = r.reader.lexer) (hf : Tracks (f ⟨⟩)) : Tracks (modify g >>= f) := by
  intro r
  rw [← h r]
  exact hf (g r)

theorem tracks_building (f : Store → α × Store) : Tracks (building f) := fun r => .refl r.reader.lexer

theorem tracks_lexing_token : Tracks (lexing Lexer.token) := by
  intro r
  have hcounts := Lexer.counts_token r.reader.lexer
  have htakes := Lexer.takes_token r.reader.lexer
  rw [lexing]
  rcases hresult : Lexer.token r.reader.lexer with ⟨t, lexer⟩ | ⟨e, lexer⟩ <;>
    rw [hresult] at hcounts htakes
  · exact ⟨htakes.1.suffix, hcounts⟩
  · exact ⟨⟨htakes, hcounts.1⟩, hcounts.2.located⟩

theorem tracks_nextToken : Tracks nextToken := by
  refine tracks_get fun r => ?_
  split
  · exact tracks_modify_bind (fun _ => rfl) (tracks_pure _)
  · exact tracks_lexing_token

theorem tracks_peekToken : Tracks peekToken := by
  refine tracks_get fun r => ?_
  split
  · exact tracks_pure _
  · exact tracks_lexing_token.bind fun _ => tracks_modify_bind (fun _ => rfl) (tracks_pure _)

theorem tracks_unexpected (token : Token) : Tracks (unexpected token : ReadM α) := by
  intro r
  refine ⟨.refl _, ?_⟩
  intro p hp
  exact (Option.some.inj hp).symm

theorem tracks_expect (token : Token) : Tracks (expect token) := by
  refine tracks_nextToken.bind fun found => ?_
  split
  · exact tracks_pure _
  · exact tracks_unexpected found

theorem tracks_variableNamed (name : String) : Tracks (variableNamed name) := by
  unfold variableNamed
  split
  · exact tracks_building _
  · refine tracks_get fun r => ?_
    split
    · exact tracks_pure _
    · exact (tracks_building _).bind fun _ => tracks_modify_bind (fun _ => rfl) (tracks_pure _)

theorem tracks_doubleQuoted (text : String) : Tracks (doubleQuoted text) := by
  refine tracks_get fun r => ?_
  split <;> exact tracks_building _

theorem tracks_enter (construct : Construct) (limit : Nat) : Tracks (enter construct limit) :=
  tracks_modify_bind (fun _ => rfl) (tracks_pure _)

theorem tracks_limit : Tracks limit := by
  refine tracks_get fun r => ?_
  split <;> exact tracks_pure _

/-- An operand that is made of others. -/
theorem tracks_complete {m : ReadM Ref} (h : Tracks m) (priority : Nat) :
    Tracks (do return ReadPhase.complete (← m) priority) :=
  h.bind fun _ => tracks_pure _

variable (ops : OperatorTable)

theorem tracks_continuation? (limit priority : Nat) : Tracks (continuation? ops limit priority) :=
  tracks_peekToken.bind fun _ => tracks_pure _

theorem tracks_startsOperand : Tracks (startsOperand ops) := by
  refine tracks_peekToken.bind fun token => ?_
  split <;> exact tracks_pure _

theorem tracks_placeholder : Tracks placeholder := by
  refine tracks_get fun r => ?_
  split
  · exact tracks_complete (tracks_building _) 0
  · intro r'
    refine ⟨.refl _, ?_⟩
    intro p hp
    exact (Option.some.inj hp).symm
  · exact tracks_modify_bind (fun _ => rfl) (tracks_complete (tracks_building _) 0)

theorem tracks_plainName (name : String) : Tracks (plainName name) := by
  unfold plainName
  split
  · exact tracks_placeholder
  · exact tracks_complete (tracks_building _) 0

theorem tracks_operatorOrName (name : String) : Tracks (operatorOrName ops name) := by
  unfold operatorOrName
  split
  · refine tracks_limit.bind fun limit => ?_
    split
    · refine (tracks_startsOperand ops).bind fun starts => ?_
      split
      · exact tracks_enter _ _
      · exact tracks_plainName name
    · exact tracks_plainName name
  · exact tracks_plainName name

theorem tracks_nameOperand (name : String) : Tracks (nameOperand ops name) := by
  refine tracks_peekToken.bind fun token => ?_
  split
  · exact tracks_nextToken.bind fun _ => tracks_enter _ _
  · split
    · exact tracks_nextToken.bind fun _ => tracks_complete (tracks_building _) 0
    · exact tracks_operatorOrName ops name
  · exact tracks_operatorOrName ops name

theorem tracks_beginOperand : Tracks (beginOperand ops) := by
  refine tracks_nextToken.bind fun token => ?_
  split
  · exact tracks_nameOperand ops _
  · exact tracks_complete (tracks_building _) 0
  · exact tracks_complete (tracks_variableNamed _) 0
  · exact tracks_complete (tracks_doubleQuoted _) 0
  · exact tracks_complete (tracks_building _) 0
  · exact tracks_enter _ _
  · exact tracks_enter _ _
  · refine tracks_peekToken.bind fun token' => ?_
    split
    · exact tracks_nextToken.bind fun _ => tracks_nameOperand ops _
    · exact tracks_enter _ _
  · refine tracks_peekToken.bind fun token' => ?_
    split
    · exact tracks_nextToken.bind fun _ => tracks_nameOperand ops _
    · exact tracks_enter _ _
  · exact tracks_unexpected _

theorem tracks_giveExpression (limit : Nat) (term : Ref) (priority : Nat) :
    Tracks (giveExpression ops limit term priority) := by
  refine (tracks_continuation? ops limit priority).bind fun found => ?_
  split
  · exact tracks_pure _
  · exact tracks_nextToken.bind fun _ => tracks_modify_bind (fun _ => rfl) (tracks_enter _ _)
  · exact tracks_nextToken.bind fun _ => (tracks_building _).bind fun _ =>
      tracks_modify_bind (fun _ => rfl) (tracks_pure _)

theorem tracks_giveOperand (construct : Construct) (term : Ref) (priority : Nat) :
    Tracks (giveOperand ops construct term priority) := by
  cases construct with
  | expression limit => exact tracks_giveExpression ops limit term priority
  | before name priority => exact tracks_complete (tracks_building _) _
  | between name priority left => exact tracks_complete (tracks_building _) _
  | args name items =>
    refine tracks_nextToken.bind fun token => ?_
    split
    · exact tracks_enter _ _
    · exact tracks_complete (tracks_building _) 0
    · exact tracks_unexpected _
  | group => exact (tracks_expect .close).bind fun _ => tracks_pure _
  | list items =>
    refine tracks_nextToken.bind fun token => ?_
    split
    · exact tracks_enter _ _
    · exact tracks_enter _ _
    · exact tracks_complete (tracks_building _) 0
    · exact tracks_unexpected _
  | listTail items => exact (tracks_expect .closeList).bind fun _ => tracks_complete (tracks_building _) 0
  | curly => exact (tracks_expect .closeCurly).bind fun _ => tracks_complete (tracks_building _) 0

/-- A step of reading takes tokens. -/
theorem tracks_step (phase : ReadPhase) : Tracks (step ops phase) := by
  cases phase with
  | operand => exact tracks_beginOperand ops
  | whole term => exact tracks_pure _
  | complete term priority =>
    refine tracks_get fun r => ?_
    split
    · exact tracks_pure _
    · exact tracks_modify_bind (fun _ => rfl) (tracks_giveOperand ops _ term priority)

/-- And so do any number of steps. -/
theorem tracks_steps (n : Nat) (phase : ReadPhase) : Tracks (steps ops n phase) := by
  induction n generalizing phase with
  | zero =>
    cases phase with
    | whole term => exact tracks_pure _
    | _ => exact fun r => ⟨.refl _, ReadError.locatedAt_of_none rfl _⟩
  | succ n ih =>
    cases phase with
    | whole term => exact tracks_pure _
    | operand => exact (tracks_step ops .operand).bind ih
    | complete term priority => exact (tracks_step ops (.complete term priority)).bind ih

theorem tracks_term : Tracks (term ops) :=
  tracks_get fun _ => (tracks_steps ops _ .operand).bind fun _ =>
    (tracks_expect .stop).bind fun _ => tracks_pure _

end Reading

namespace TermReader

variable {α β : Type} {lx : Lexer} {result : Except ReadError α} {r : TermReader}

/-- What comes of a call of a reader: its lexer goes on from `lx`, and an error names the place that it
has reached. -/
structure Tracked (lx : Lexer) (result : Except ReadError α) (r : TermReader) : Prop where
  /-- The lexer goes on. -/
  reaches : lx.Reaches r.lexer
  /-- The place of an error. -/
  located : ∀ e, result = .error e → e.LocatedAt r.lexer

theorem Tracked.map (h : Tracked lx result r) (f : α → β) : Tracked lx (result.map f) r := by
  refine ⟨h.reaches, ?_⟩
  cases result with
  | ok a => exact nofun
  | error e =>
    intro e' he
    cases he
    exact h.located e rfl

/-- Finding out whether the text has ended is an action of the lexer, unless a token was looked at. -/
theorem tracked_atEnd (r : TermReader) : Tracked r.lexer r.atEnd.1 r.atEnd.2 := by
  rw [atEnd]
  split
  · exact ⟨.refl _, nofun⟩
  · have hadvances := Lexer.advances_atEnd r.lexer
    have hcounts := Lexer.counts_atEnd r.lexer
    rcases hresult : Lexer.atEnd r.lexer with ⟨isEnd, lexer⟩ | ⟨e, lexer⟩ <;>
      rw [hresult] at hadvances hcounts
    · exact ⟨⟨hadvances.suffix, hcounts⟩, nofun⟩
    · refine ⟨⟨hadvances, hcounts.1⟩, ?_⟩
      intro e' he
      cases he
      exact hcounts.2.located

theorem tracked_read (ops : OperatorTable) (r : TermReader) (s : Store) :
    Tracked r.lexer (r.read ops s).1 (r.read ops s).2.1 := by
  have hterm := Reading.tracks_term ops { reader := r, store := s, begun := [.expression 1200] }
  rw [read]
  rcases hresult : Reading.term ops { reader := r, store := s, begun := [.expression 1200] } with
    ⟨t, reading⟩ | ⟨e, reading⟩ <;> rw [hresult] at hterm
  · exact ⟨hterm, nofun⟩
  · refine ⟨hterm.1, ?_⟩
    intro e' he
    cases he
    exact hterm.2

theorem tracked_next? (ops : OperatorTable) (r : TermReader) (s : Store) :
    Tracked r.lexer (r.next? ops s).1 (r.next? ops s).2.1 := by
  have hend := tracked_atEnd r
  rw [next?]
  rcases hresult : r.atEnd with ⟨e | isEnd, r'⟩ <;> rw [hresult] at hend
  · refine ⟨hend.reaches, ?_⟩
    intro e' he
    cases he
    exact hend.located e rfl
  · cases isEnd with
    | true => exact ⟨hend.reaches, nofun⟩
    | false =>
      have hread := (tracked_read ops r' s).map some
      exact ⟨hend.reaches.trans hread.reaches, hread.located⟩

end TermReader

namespace Input

/-- How many ends of line belong to the shell and are passed over without the lexer. -/
def uncounted (input : Input) : Nat :=
  if [.char '#', .char '!'] <+: input ∧ .char '\n' ∈ input then 1 else 0

theorem dropLine_newlines {input rest : Input} (h : dropLine input = .ok rest) :
    ∃ line, input = line ++ rest ∧ newlines line = if .char '\n' ∈ input then 1 else 0 := by
  fun_induction dropLine input with
  | case1 =>
    cases h
    exact ⟨[], rfl, rfl⟩
  | case2 => cases h
  | case3 rest' =>
    cases h
    exact ⟨[.char '\n'], rfl, by rw [if_pos List.mem_cons_self]; rfl⟩
  | case4 c rest' hc ih =>
    obtain ⟨line, hline, hcount⟩ := ih h
    refine ⟨.char c :: line, congrArg (Item.char c :: ·) hline, ?_⟩
    have hmem : Item.char '\n' ∈ Item.char c :: rest' ↔ Item.char '\n' ∈ rest' := by
      rw [List.mem_cons, or_iff_right fun heq => hc (Item.char.inj heq).symm]
    rw [newlines_char, if_neg hc, Nat.add_zero, hcount]
    simp only [hmem]

/-- What is dropped of a source are the characters of the shell's line. -/
theorem dropShebang_newlines {input rest : Input} (h : dropShebang input = .ok rest) :
    ∃ line, input = line ++ rest ∧ newlines line = input.uncounted := by
  unfold dropShebang at h
  split at h
  · cases h
  · cases h
  · rename_i rest'
    obtain ⟨line, hline, hcount⟩ := dropLine_newlines h
    refine ⟨.char '#' :: .char '!' :: line, by rw [hline]; rfl, ?_⟩
    rw [newlines_char, newlines_char, hcount, uncounted]
    simp
  · rename_i hnot
    cases h
    refine ⟨[], rfl, ?_⟩
    rw [uncounted, if_neg]
    · rfl
    · rintro ⟨⟨rest', rfl⟩, -⟩
      exact hnot rest' rfl

end Input

namespace TermSource

variable {source source' : TermSource} {input : Input}

/-- The sources that a source becomes as terms are read from it, whatever the operators, the store and
the outcome of each call. -/
inductive Becomes : TermSource → TermSource → Prop
  /-- Nothing was read. -/
  | start (source : TermSource) : Becomes source source
  /-- One more term was read. -/
  | next {source source' : TermSource} (h : Becomes source source') (ops : OperatorTable) (s : Store) :
    Becomes source (source'.next? ops s).2.1

/-- The shell's line was passed over, and the lexer goes on from there. -/
def Begun (input : Input) (source : TermSource) : Prop :=
  source.atStart = false ∧ ∃ rest, input.dropShebang = .ok rest ∧
    Lexer.Reaches { input := rest } source.reader.lexer

/-- The text of the source is `input`, of which nothing was read so far or the lexer reads. -/
def Of (input : Input) (source : TermSource) : Prop :=
  (source.atStart = true ∧ source.reader.lexer = { input }) ∨ source.Begun input

/-- What a call gives of a source that was begun. -/
theorem Begun.next? (h : source.Begun input) (ops : OperatorTable) (s : Store) :
    (source.next? ops s).2.1.Begun input ∧ ∀ e, (source.next? ops s).1 = .error e →
      e.LocatedAt (source.next? ops s).2.1.reader.lexer := by
  obtain ⟨hstart, rest, hrest, hreaches⟩ := h
  have htracked := source.reader.tracked_next? ops s
  have hstarted : source.started = .ok source := by
    rw [started, hstart]
    rfl
  rw [TermSource.next?, hstarted]
  exact ⟨⟨hstart, rest, hrest, hreaches.trans htracked.reaches⟩, htracked.located⟩

/-- What a call gives of any source of the text: an error that has a place is met by the lexer. -/
theorem Of.next? (h : source.Of input) (ops : OperatorTable) (s : Store) :
    (source.next? ops s).2.1.Of input ∧
      ∀ e p, (source.next? ops s).1 = .error e → e.position? = some p →
        (source.next? ops s).2.1.Begun input ∧ p = (source.next? ops s).2.1.reader.lexer.position := by
  rcases h with ⟨hstart, hlexer⟩ | hbegun
  · rcases hdrop : input.dropShebang with fault | rest
    · have hstarted : source.started = .error (.input fault) := by
        rw [started, hstart, hlexer, hdrop]
        rfl
      rw [TermSource.next?, hstarted]
      refine ⟨.inl ⟨hstart, hlexer⟩, ?_⟩
      intro e p he hp
      cases he
      cases hp
    · -- The first call goes on like one after the shell's line.
      let source₁ : TermSource :=
        { source with atStart := false, reader := { source.reader with lexer := { input := rest } } }
      have hstarted : source.started = .ok source₁ := by
        rw [started, hstart, hlexer, hdrop]
        rfl
      have hstarted₁ : source₁.started = .ok source₁ := rfl
      have hsame : source.next? ops s = source₁.next? ops s := by
        rw [TermSource.next?, TermSource.next?, hstarted, hstarted₁]
      have hbegun : source₁.Begun input := ⟨rfl, rest, hdrop, .refl _⟩
      rw [hsame]
      exact ⟨.inr (hbegun.next? ops s).1, fun e p he hp =>
        ⟨(hbegun.next? ops s).1, (hbegun.next? ops s).2 e he p hp⟩⟩
  · exact ⟨.inr (hbegun.next? ops s).1, fun e p he hp =>
      ⟨(hbegun.next? ops s).1, (hbegun.next? ops s).2 e he p hp⟩⟩

theorem Becomes.of (h : source.Becomes source') (hsource : source.Of input) : source'.Of input := by
  induction h with
  | start => exact hsource
  | next _ ops s ih => exact (ih.next? ops s).1

/-- The line that the lexer of a source has reached. -/
theorem Begun.line_eq (h : source.Begun input) :
    ∃ passed : Input, input = passed ++ source.reader.lexer.input ∧
      source.reader.lexer.position.line + input.uncounted = passed.newlines := by
  obtain ⟨-, rest, hrest, ⟨passed, hpassed⟩, hlines⟩ := h
  obtain ⟨line, hline, hcount⟩ := Input.dropShebang_newlines hrest
  refine ⟨line ++ passed, ?_, ?_⟩
  · rw [hline, List.append_assoc, hpassed]
  · have hsum : source.reader.lexer.position.line + source.reader.lexer.input.newlines =
        0 + rest.newlines := hlines
    have hrest' : rest = passed ++ source.reader.lexer.input := hpassed.symm
    rw [hrest', Input.newlines_append] at hsum
    rw [Input.newlines_append, hcount]
    omega

/-- **The line of an error.**  Whenever a call of a source fails with an error that has a place, after
any number of calls, the line of that place is the number of ends of line of the text that precede what
the lexer has left to read, less the end of the shell's line if the text begins with one: that line is
passed over without the lexer, which is what counts lines. -/
theorem line_of_error {text : String} {name : String} {quotes : DoubleQuotes}
    {placeholders : Option (List Term)} {source : TermSource}
    (hcalls : Becomes ⟨name, .ofInput (.ofText text) quotes placeholders, true⟩ source)
    (ops : OperatorTable) (s : Store) {e : ReadError} (he : (source.next? ops s).1 = .error e)
    {p : Position} (hp : e.position? = some p) :
    ∃ passed : Input, Input.ofText text = passed ++ (source.next? ops s).2.1.reader.lexer.input ∧
      p.line + (Input.ofText text).uncounted = passed.newlines := by
  have hof : source.Of (.ofText text) := hcalls.of (.inl ⟨rfl, rfl⟩)
  obtain ⟨hbegun, rfl⟩ := (hof.next? ops s).2 e p he hp
  exact hbegun.line_eq

theorem line_of_error_in_script :
    ((⟨"script", .ofInput (.ofText "#!x\n)") .chars none, true⟩ : TermSource).next? .standard {}).1 =
        .error (.unexpected ")" ⟨0, 1⟩) ∧
      ∃ passed : Input, Input.ofText "#!x\n)" = passed ++ [] ∧
        0 + (Input.ofText "#!x\n)").uncounted = passed.newlines := by
  have herror : ((⟨"script", .ofInput (.ofText "#!x\n)") .chars none, true⟩ : TermSource).next?
      .standard {}).1 = .error (.unexpected ")" ⟨0, 1⟩) := by decide +kernel
  have hrest : ((⟨"script", .ofInput (.ofText "#!x\n)") .chars none, true⟩ : TermSource).next?
      .standard {}).2.1.reader.lexer.input = [] := by decide +kernel
  have hline := line_of_error (.start _) .standard {} herror rfl
  rw [hrest] at hline
  exact ⟨herror, hline⟩

end TermSource

end Clausal

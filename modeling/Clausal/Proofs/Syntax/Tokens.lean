import Clausal.Proofs.Machine.Reading

/-! # The tokens that a reader takes

The tokens of a reader are those that it gives one after the other, whoever asks for them
(`TermReader.Takes`).  Looking at a token holds it back without taking it, so a reader that has looked
ahead is another one than before, and has the same tokens to come.  `TermReader.Reads r₀ tokens r` is
what stays true while a term is read: the tokens were taken from `r₀`, and `r` goes on from there.
-/

namespace Clausal

namespace TermReader

variable {r r' r'' r₀ : TermReader} {token : Token} {tokens : List Token}

/-- The next token, and the reader after it. -/
def token? (r : TermReader) : Option (Token × TermReader) :=
  match r.ahead with
  | some token => some (token, { r with ahead := none })
  | none =>
    match Lexer.token r.lexer with
    | .ok token lexer => some (token, { r with lexer })
    | .error _ _ => none

/-- The reader `r'` comes after `r` has given the tokens. -/
inductive Takes : TermReader → List Token → TermReader → Prop
  /-- No token. -/
  | nil (r : TermReader) : Takes r [] r
  /-- One more token in front. -/
  | cons {r r' r'' : TermReader} {token : Token} {tokens : List Token}
    (h : r.token? = some (token, r')) (htokens : Takes r' tokens r'') :
    Takes r (token :: tokens) r''

theorem Takes.snoc (h : r.Takes tokens r') (htoken : r'.token? = some (token, r'')) :
    r.Takes (tokens ++ [token]) r'' := by
  induction h with
  | nil r => exact .cons htoken (.nil r'')
  | cons h _ ih => exact .cons h (ih htoken)

theorem ahead_of_token? (h : r.token? = some (token, r')) : r'.ahead = none := by
  rw [token?] at h
  split at h
  · cases h
    rfl
  · split at h <;> cases h
    assumption

/-- A token that is held back is the next. -/
theorem token?_held (token : Token) (h : r.ahead = none) :
    { r with ahead := some token }.token? = some (token, r) := by
  obtain ⟨lexer, ahead, placeholders, doubleQuotes⟩ := r
  subst h
  rfl

/-- Taking a token changes nothing but what is still to be read. -/
theorem Sound.of_token? (h : r.Sound) (htoken : r.token? = some (token, r')) :
    token.Canonical ∧ r'.Sound ∧ r'.placeholders = r.placeholders ∧
      r'.doubleQuotes = r.doubleQuotes := by
  rw [token?] at htoken
  split at htoken
  · rename_i ahead hahead
    cases htoken
    exact ⟨h.ahead _ hahead, ⟨nofun, h.placeholders⟩, rfl, rfl⟩
  · split at htoken
    · rename_i hlexer
      cases htoken
      exact ⟨(Lexer.gives_token r.lexer).of_ok hlexer, ⟨h.ahead, h.placeholders⟩, rfl, rfl⟩
    · cases htoken

/-- What it means that the tokens were taken since `r₀`, for a term without placeholders. -/
structure Reads (r₀ : TermReader) (tokens : List Token) (r : TermReader) : Prop where
  /-- The tokens that come are those that come after the tokens taken. -/
  takes : ∃ r', r₀.Takes tokens r' ∧ r'.token? = r.token?
  /-- The reader holds on to nothing that is not well made. -/
  sound : r.Sound
  /-- Placeholders are names. -/
  placeholders : r.placeholders = none
  /-- Text is read as before. -/
  doubleQuotes : r.doubleQuotes = r₀.doubleQuotes

theorem Reads.refl (h : r.Sound) (hplaceholders : r.placeholders = none) : r.Reads [] r where
  takes := ⟨r, .nil r, rfl⟩
  sound := h
  placeholders := hplaceholders
  doubleQuotes := rfl

theorem Reads.takes_of_token? (h : r₀.Reads tokens r) (htoken : r.token? = some (token, r')) :
    r₀.Takes (tokens ++ [token]) r' := by
  obtain ⟨mid, htakes, hnext⟩ := h.takes
  exact htakes.snoc (hnext.trans htoken)

theorem Reads.next (h : r₀.Reads tokens r) (htoken : r.token? = some (token, r')) :
    r₀.Reads (tokens ++ [token]) r' := by
  obtain ⟨-, hsound, hplaceholders, hquotes⟩ := h.sound.of_token? htoken
  exact ⟨⟨r', h.takes_of_token? htoken, rfl⟩, hsound, hplaceholders.trans h.placeholders,
    hquotes.trans h.doubleQuotes⟩

end TermReader

namespace Reading

variable {α β : Type} {r : Reading} {r₀ reader : TermReader} {token : Token} {tokens : List Token}

/-- If the action gives something, `Q` holds of it and of the state then. -/
abbrev Yields (r : Reading) (m : ReadM α) (Q : α → Reading → Prop) : Prop :=
  Ends (m r) Q fun _ => True

theorem yields_get {f : Reading → ReadM α} {Q : α → Reading → Prop} (h : Yields r (f r) Q) :
    Yields r (get >>= f) Q :=
  h

theorem yields_modify {g : Reading → Reading} {f : PUnit → ReadM α} {Q : α → Reading → Prop}
    (h : Yields (g r) (f ⟨⟩) Q) : Yields r (modify g >>= f) Q :=
  h

theorem yields_lexing (h : r.reader.ahead = none) : Yields r (lexing Lexer.token) fun token r' =>
    ∃ reader, r.reader.token? = some (token, reader) ∧ r' = { r with reader } := by
  show Ends (lexing Lexer.token r) _ _
  rw [lexing]
  rcases hlexer : Lexer.token r.reader.lexer with ⟨token, lexer⟩ | ⟨e, lexer⟩
  · exact ⟨{ r.reader with lexer }, by simp only [TermReader.token?, h, hlexer], rfl⟩
  · trivial

/-- What is taken is the token that comes. -/
theorem yields_nextToken : Yields r nextToken fun token r' =>
    ∃ reader, r.reader.token? = some (token, reader) ∧ r' = { r with reader } := by
  refine yields_get ?_
  split
  · rename_i token hahead
    exact ⟨{ r.reader with ahead := none }, by simp only [TermReader.token?, hahead], rfl⟩
  · exact yields_lexing ‹_›

/-- Looking at a token leaves it to be taken. -/
theorem yields_peekToken (h : r₀.Reads tokens r.reader) : Yields r peekToken fun token r' =>
    ∃ reader, r' = { r with reader } ∧ r₀.Reads tokens reader ∧
      ∃ next, reader.token? = some (token, next) := by
  refine yields_get ?_
  split
  · rename_i token hahead
    exact ⟨r.reader, rfl, h, { r.reader with ahead := none }, by
      simp only [TermReader.token?, hahead]⟩
  · rename_i hahead
    refine (yields_lexing hahead).bind fun token r' ⟨reader, htoken, hr'⟩ => ?_
    subst hr'
    obtain ⟨hcanonical, hsound, hplaceholders, hquotes⟩ := h.sound.of_token? htoken
    obtain ⟨mid, htakes, hnext⟩ := h.takes
    have htoken' := TermReader.token?_held token (TermReader.ahead_of_token? htoken)
    refine yields_modify ⟨_, rfl, ⟨⟨mid, htakes, ?_⟩, ⟨?_, hsound.placeholders⟩, ?_, ?_⟩, _, htoken'⟩
    · exact hnext.trans (htoken.trans htoken'.symm)
    · exact fun token' heq => Option.some.inj heq ▸ hcanonical
    · exact hplaceholders.trans h.placeholders
    · exact hquotes.trans h.doubleQuotes

theorem yields_expect : Yields r (expect token) fun _ r' =>
    ∃ reader, r.reader.token? = some (token, reader) ∧ r' = { r with reader } := by
  refine yields_nextToken.bind fun found r' ⟨reader, htoken, hr'⟩ => ?_
  split
  · rename_i heq
    exact ⟨reader, heq ▸ htoken, hr'⟩
  · trivial

end Reading

end Clausal

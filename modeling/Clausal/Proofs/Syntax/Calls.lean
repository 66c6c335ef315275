import Clausal.Proofs.Syntax.Advance
import Clausal.Proofs.Syntax.CharReading
import Clausal.Proofs.Syntax.Lexemes

/-! # Calls of the lexer

Whoever reads asks a lexer two things, in any order and as often as wanted: whether nothing but layout
remains, and for the next token.  Each call answers or fails, and the lexer goes on from the state that
the call left (`Lexer.after`).

Whatever a call did, what is left to be read is an end of what there was, with what was put back in front
and the last character put back first.  (A reader that decodes its bytes one character at a time and keeps
what is put back on a stack goes through the same list, as is shown for `LazyReader`.)

And asking for the end is silent (`Lexer.Ahead`): it skips layout that the next token would have skipped,
and remembers that there was some.  The tokens are the same, and an opening bracket counts as after layout
or not, as if it had never been asked.  What does differ is the column that an error names, since a slash
that begins no comment is counted whenever it is looked at.
-/

namespace Clausal

section Results

variable {ε σ α : Type} {r : EStateM.Result ε σ α} {P : σ → Prop}

/-- The state that an action ended in, with a value or with an error. -/
def stateOf : EStateM.Result ε σ α → σ
  | .ok _ st => st
  | .error _ st => st

/-- What an action ended in, apart from the state. -/
def answerOf : EStateM.Result ε σ α → Except ε α
  | .ok a _ => .ok a
  | .error e _ => .error e

theorem Ends.stateOf (h : Ends r (fun _ => P) P) : P (stateOf r) := by
  cases r with
  | ok a st => exact h
  | error e st => exact h

end Results

namespace Lexer

/-! ## Calls -/

/-- What can be asked of a lexer. -/
inductive Call where
  /-- Whether nothing but layout and comments remains. -/
  | atEnd
  /-- The next token. -/
  | token
  deriving DecidableEq, Repr

variable {lx lx' : Lexer} {input rest : Input} {p p' : Position} {around : Surrounding} {seen : Bool}

/-- The lexer after a call. -/
def after (lx : Lexer) : Call → Lexer
  | .atEnd => stateOf (atEnd lx)
  | .token => stateOf (token lx)

/-- The lexer after some calls, one after the other. -/
def afterAll (lx : Lexer) (calls : List Call) : Lexer := calls.foldl after lx

/-- What the calls for a token answer. -/
def tokens : Lexer → List Call → List (Except ReadError Token)
  | _, [] => []
  | lx, .atEnd :: calls => tokens (lx.after .atEnd) calls
  | lx, .token :: calls => answerOf (token lx) :: tokens (lx.after .token) calls

/-- What is left after a call is an end of what there was. -/
theorem suffix_after (lx : Lexer) (call : Call) : (lx.after call).input <:+ lx.input := by
  cases call with
  | atEnd => exact ((advances_atEnd lx).imp (fun _ _ h => h.suffix) fun _ => id).stateOf
  | token => exact ((takes_token lx).imp (fun _ _ h => h.1.suffix) fun _ => id).stateOf

/-! ## Layout is skipped once -/

/-- The input is text: every read before the end gives a character. -/
def Faultless (input : Input) : Prop := ∀ fault, Item.fault fault ∉ input

theorem Faultless.suffix (h : Faultless input) (hsuffix : rest <:+ input) : Faultless rest :=
  fun fault hmem => h fault (hsuffix.subset hmem)

theorem Faultless.skipLayout {r : Except ReadError Bool} (h : Faultless input)
    (hskip : skipLayout around seen p input = (r, p', rest)) : Faultless rest := by
  have hsuffix := (skipped_skipLayout around seen p input).1
  rw [hskip] at hsuffix
  exact h.suffix hsuffix

/-- What skipping layout finds does not depend on the place. -/
theorem skipLayout_place {r : Except ReadError Bool}
    (h : skipLayout around seen p input = (r, p', rest)) (q : Position) :
    ∃ q', skipLayout around seen q input = (r, q', rest) := by
  have hsame := sameLayout_skipLayout Input.nextLine_nil around seen p q input
  rw [List.append_nil, h] at hsame
  generalize skipLayout around seen q input = there at hsame ⊢
  cases hsame with
  | stays _ _ q' =>
    rw [List.append_nil]
    exact ⟨q', rfl⟩
  | ends _ _ q' => exact ⟨q', rfl⟩
  | goesOn _ _ _ hmore => cases hmore
  | fails _ _ q' =>
    rw [List.append_nil]
    exact ⟨q', rfl⟩
  | cut _ _ _ _ hmore => exact absurd rfl hmore

/-- No layout comes after layout that was skipped. -/
theorem skipLayout_skipped {b : Bool} (h : skipLayout around seen p input = (.ok b, p', rest))
    (q : Position) : ∃ q', skipLayout .none false q rest = (.ok false, q', rest) := by
  fun_induction skipLayout around seen p input with
  | case1 => cases h
  | case2 =>
    cases h
    exact ⟨q, rfl⟩
  | case3 => cases h
  | case4 _ _ _ _ ih => exact ih h
  | case5 _ _ _ _ _ ih => exact ih h
  | case6 _ _ _ _ _ ih => exact ih h
  | case7 _ _ _ _ ih => exact ih h
  | case8 _ _ _ _ _ ih => exact ih h
  | case9 => cases h
  | case10 seen p rest hstar hfault hlayout hc =>
    -- A slash that begins no comment.
    cases h
    refine ⟨q.next '/', ?_⟩
    rw [skipLayout_char, if_neg hlayout, if_neg hc, if_pos rfl]
    split
    · exact absurd rfl (hstar _)
    · exact absurd rfl (hfault _ _)
    · rfl
  | case11 seen p c rest hlayout hc hc' =>
    cases h
    refine ⟨q, ?_⟩
    rw [skipLayout_char, if_neg hlayout, if_neg hc, if_neg hc']

/-- In a text, layout cannot be skipped only where a comment has no end, and then nothing is left. -/
theorem skipLayout_error {e : ReadError} (hinput : Faultless input)
    (h : skipLayout around seen p input = (.error e, p', rest)) : e = .endOfText ∧ rest = [] := by
  fun_induction skipLayout around seen p input with
  | case1 =>
    cases h
    exact ⟨rfl, rfl⟩
  | case2 => cases h
  | case3 => exact absurd List.mem_cons_self (hinput _)
  | case4 _ _ _ _ ih => exact ih (hinput.suffix (List.suffix_cons _ _)) h
  | case5 _ _ _ _ _ ih => exact ih (hinput.suffix (List.suffix_cons _ _)) h
  | case6 _ _ _ _ _ ih => exact ih (hinput.suffix (List.suffix_cons _ _)) h
  | case7 _ _ _ _ ih => exact ih (hinput.suffix (List.suffix_cons _ _)) h
  | case8 _ _ _ _ _ ih =>
    exact ih (hinput.suffix ((List.suffix_cons _ _).trans (List.suffix_cons _ _))) h
  | case9 => exact absurd (List.mem_cons_of_mem _ List.mem_cons_self) (hinput _)
  | case10 => cases h
  | case11 => cases h

theorem scanLayout_cut (h : skipLayout .none false lx.position lx.input = (.error .endOfText, p, [])) :
    scanLayout lx = .error .endOfText { lx with position := p, input := [] } := by
  rw [scanLayout, h]

/-! ## Asking for the end is silent -/

/-- The second lexer is the first, but it may have been asked for the end since the last token. -/
inductive Ahead (lx lx' : Lexer) : Prop
  /-- Nothing was skipped. -/
  | level (h : Goes [] lx lx')
  /-- Layout was skipped, and it was remembered whether there was any. -/
  | skipped {seen : Bool} {p : Position}
    (hskip : skipLayout .none false lx.position lx.input = (.ok seen, p, lx'.input))
    (hseen : lx'.layoutSeen = (lx.layoutSeen || seen))
  /-- A comment without end was skipped. -/
  | cut {p : Position}
    (hskip : skipLayout .none false lx.position lx.input = (.error .endOfText, p, []))
    (hnil : lx'.input = [])

/-- Asking for the end skips layout and remembers whether there was any. -/
theorem after_atEnd (hrest : Faultless rest)
    (h : skipLayout .none false lx.position lx.input = (.ok seen, p, rest)) :
    lx.after .atEnd = ⟨rest, p, lx.layoutSeen || seen⟩ := by
  rw [after, atEnd, bind_eq_of_ok (scanLayout_eq h)]
  rcases rest with _ | ⟨c | fault, rest⟩
  · rfl
  · rfl
  · exact absurd List.mem_cons_self (hrest fault)

/-- Asking for the end once more leaves the lexer ahead of the same one. -/
theorem Ahead.atEnd (h : Ahead lx lx') (hinput : Faultless lx.input) : Ahead lx (lx'.after .atEnd) := by
  cases h with
  | level h =>
    have hsame : lx'.input = lx.input := h.input.trans (List.append_nil _)
    rcases hskip : skipLayout .none false lx.position lx.input with ⟨e | seen, p, rest⟩
    · obtain ⟨rfl, rfl⟩ := skipLayout_error hinput hskip
      obtain ⟨q, hthere⟩ := skipLayout_place hskip lx'.position
      rw [← hsame] at hthere
      refine .cut hskip ?_
      rw [after, Lexer.atEnd, bind_eq_of_error (scanLayout_cut hthere)]
      rfl
    · obtain ⟨q, hthere⟩ := skipLayout_place hskip lx'.position
      rw [← hsame] at hthere
      rw [after_atEnd (hinput.skipLayout hskip) hthere]
      exact .skipped hskip (congrArg (· || seen) h.layoutSeen)
  | skipped hskip hseen =>
    obtain ⟨q, hagain⟩ := skipLayout_skipped hskip lx'.position
    rw [after_atEnd (hinput.skipLayout hskip) hagain]
    exact .skipped hskip ((Bool.or_false _).trans hseen)
  | cut hskip hnil =>
    have hsuffix := suffix_after lx' .atEnd
    rw [hnil] at hsuffix
    exact .cut hskip (List.suffix_nil.mp hsuffix)

/-- What comes after layout is the same token at every place. -/
theorem steady_afterLayout (b : Bool) : Steady [] (lookahead >>= tokenFrom b) :=
  steady_lookahead_bind Input.nextLine_nil fun c => steady_tokenFrom Input.nextLine_nil b c

/-- **A token is the same, however often the end was asked for before it.** -/
theorem Ahead.token (h : Ahead lx lx') : (reading []).Matches Eq (token lx) (token lx') := by
  cases h with
  | level h => exact steady_token Input.nextLine_nil h
  | @skipped seen p hskip hseen =>
    -- What was skipped before is remembered, and what is skipped now is none.
    obtain ⟨q, hagain⟩ := skipLayout_skipped hskip lx'.position
    have hscan : scanLayout { lx with layoutSeen := false } = .ok seen ⟨lx'.input, p, false⟩ :=
      scanLayout_eq hskip
    have hscan' : scanLayout { lx' with layoutSeen := false } = .ok false ⟨lx'.input, q, false⟩ :=
      scanLayout_eq hagain
    rw [token_eq, token_eq, tokenAfter, tokenAfter, bind_eq_of_ok hscan, bind_eq_of_ok hscan', hseen,
      Bool.or_false]
    exact steady_afterLayout _ ⟨(List.append_nil _).symm, rfl⟩
  | @cut p hskip hnil =>
    -- There is no token, whether the end is met in the comment or after it.
    have hscan : scanLayout { lx with layoutSeen := false } = .error .endOfText ⟨[], p, false⟩ :=
      scanLayout_cut hskip
    obtain ⟨input', p', layoutSeen'⟩ := lx'
    obtain rfl : input' = [] := hnil
    rw [token_eq, tokenAfter, bind_eq_of_error hscan]
    exact Correspondence.matches_error (C := reading []) rfl ⟨rfl, rfl⟩

/-- Matching results are answers that are the same up to places, and nothing more is left in one state
than in the other. -/
theorem same_of_matches {α : Type} {r r' : EStateM.Result ReadError Lexer α}
    (h : (reading []).Matches Eq r r') :
    (answerOf r').mapError ReadError.unplaced = (answerOf r).mapError ReadError.unplaced ∧
      Goes [] (stateOf r) (stateOf r') := by
  rcases r with ⟨a, lx⟩ | ⟨e, lx⟩ <;> rcases r' with ⟨a', lx'⟩ | ⟨e', lx'⟩
  · obtain ⟨rfl, hgoes⟩ := h
    exact ⟨rfl, hgoes⟩
  · exact h.elim
  · exact absurd rfl h.1
  · obtain ⟨he, hgoes⟩ := h.resolve_left fun hexcused => hexcused.1 rfl
    exact ⟨congrArg Except.error he, hgoes⟩

/-- The tokens are those of the calls for a token, by induction on the calls. -/
theorem Ahead.tokens (h : Ahead lx lx') (hinput : Faultless lx.input) (calls : List Call) :
    (lx'.tokens calls).map (·.mapError ReadError.unplaced) =
      (lx.tokens (calls.filter (· = .token))).map (·.mapError ReadError.unplaced) := by
  induction calls generalizing lx lx' with
  | nil => rfl
  | cons call calls ih =>
    cases call with
    | atEnd => exact ih (h.atEnd hinput) hinput
    | token =>
      obtain ⟨hanswer, hgoes⟩ := same_of_matches h.token
      have hrest := ih (.level hgoes) (hinput.suffix (suffix_after lx .token))
      rw [List.filter_cons_of_pos (by decide)]
      exact List.cons_eq_cons.mpr ⟨hanswer, hrest⟩

/-! ## Sources -/

/-- Well encoded bytes are text. -/
theorem faultless_ofBytes {bytes : List UInt8} (h : bytes.toByteArray.IsValidUTF8) :
    Faultless (.ofBytes none bytes) := by
  obtain ⟨cs, rest, hbytes, hstuck⟩ := Input.exists_stuck bytes
  have hlongest : Input.Longest bytes cs rest := hbytes ▸ Input.longest_of_stuck hstuck
  obtain rfl := hlongest.isValidUTF8_iff.mp h
  rw [hbytes, Input.ofBytes_flatMap_append, Input.ofBytes_nil, List.append_nil]
  intro fault hmem
  obtain ⟨c, -, hc⟩ := List.mem_map.mp hmem
  cases hc

/-- **Calls lose no characters, and asking for the end is silent.**  However calls for the end and for
tokens are mixed, on a source that is well encoded: what is left to be read after a call, with what was put
back in front, is an end of what was left before it, whether the call answered or failed; and the tokens are
the same as without the calls for the end, and an opening bracket is one after layout or not, as it would be
without them. -/
theorem calls_conserve {bytes : List UInt8} (h : bytes.toByteArray.IsValidUTF8) (calls : List Call) :
    let lx : Lexer := { input := .ofBytes none bytes }
    (∀ call, ((lx.afterAll calls).after call).input <:+ (lx.afterAll calls).input) ∧
      (lx.tokens calls).map (·.mapError ReadError.unplaced) =
        (lx.tokens (calls.filter (· = .token))).map (·.mapError ReadError.unplaced) := by
  intro lx
  have hlevel : Ahead lx lx := .level ⟨(List.append_nil _).symm, rfl⟩
  exact ⟨suffix_after (lx.afterAll calls), hlevel.tokens (faultless_ofBytes h) calls⟩

/-- A bracket after layout that was skipped by asking for the end, and a comment without end. -/
theorem calls_conserve_bracket :
    let bytes := "- (a /*".toList.flatMap String.utf8EncodeChar
    let lx : Lexer := { input := .ofBytes none bytes }
    let calls : List Call := [.token, .atEnd, .atEnd, .token, .token, .atEnd, .token]
    bytes.toByteArray.IsValidUTF8 ∧
      (∀ call, ((lx.afterAll calls).after call).input <:+ (lx.afterAll calls).input) ∧
      (lx.tokens calls).map (·.mapError ReadError.unplaced) =
        (lx.tokens (calls.filter (· = .token))).map (·.mapError ReadError.unplaced) ∧
      lx.tokens calls = [.ok (.literal (.atom "-")), .ok .openGroup, .ok (.literal (.atom "a")),
        .error .endOfText] := by
  intro bytes lx calls
  have hvalid : bytes.toByteArray.IsValidUTF8 := ⟨"- (a /*".toList, rfl⟩
  obtain ⟨hsuffix, htokens⟩ := calls_conserve hvalid calls
  refine ⟨hvalid, hsuffix, htokens, ?_⟩
  have hinput : Input.ofBytes none bytes = "- (a /*".toList.map .char := by
    rw [← List.append_nil bytes, Input.ofBytes_flatMap_append, Input.ofBytes_nil, List.append_nil]
  show tokens ⟨Input.ofBytes none bytes, {}, false⟩ calls = _
  rw [hinput]
  decide +kernel

end Lexer

end Clausal

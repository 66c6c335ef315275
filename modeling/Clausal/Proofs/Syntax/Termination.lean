import Clausal.Proofs.Syntax.Advance
import Clausal.Proofs.Syntax.Tokens

/-! # Reading comes to an end

A token need not take a character: a capital that cannot continue a name is a variable without a name,
as often as it is asked for.  Still every text is read in finitely many steps.  An operand takes a
token, and a construct that asks for another operand takes one that is no variable; so only the
constructs that are begun can be completed without taking a character, and each of them only once.

`Reading.cost` weighs the characters to come, the constructs begun and the phase against each other, and
every step lowers it (`Reading.lowers_step`).  The result is that reading a term ends after a number of
steps that is linear in the text (`TermReader.reading_ends`), and that a source has at most as many terms
as characters.
-/

namespace Clausal

/-- How many characters the input gives before it ends or fails. -/
def Input.characters : Input → Nat
  | .char _ :: rest => Input.characters rest + 1
  | _ => 0

theorem Input.characters_le_length (input : Input) : Input.characters input ≤ input.length := by
  induction input with
  | nil => exact Nat.le_refl _
  | cons item rest ih =>
    cases item with
    | char c => exact Nat.succ_le_succ ih
    | fault fault => exact Nat.zero_le _

theorem Input.characters_append (cs : List Char) (rest : Input) :
    Input.characters (cs.map .char ++ rest) = cs.length + Input.characters rest := by
  induction cs with
  | nil => exact (Nat.zero_add _).symm
  | cons c cs ih =>
    rw [List.map_cons, List.cons_append, Input.characters, ih, List.length_cons]
    omega

namespace Lexer

variable {lx : Lexer} {input : Input} {t : Token}

theorem Passed.characters_le (h : Passed input lx) : lx.input.characters ≤ input.characters := by
  obtain ⟨cs, rfl⟩ := h
  rw [Input.characters_append]
  omega

theorem Taken.characters_le (h : Taken input t lx) :
    lx.input.characters + t.weight ≤ input.characters := by
  obtain ⟨⟨cs, rfl⟩, hlength⟩ := h
  rw [Input.characters_append]
  rw [List.length_append, List.length_map] at hlength
  omega

end Lexer

namespace TermReader

/-- How many characters are to come, where a token that was looked at counts as one if it has taken
any. -/
def supply (r : TermReader) : Nat := r.lexer.input.characters + (r.ahead.elim 0 Token.weight)

end TermReader

namespace Reading

variable {r : Reading} {s n : Nat} {begun : List Construct} {ops : OperatorTable}

/-- What is left to read and the constructs begun. -/
def Has (s : Nat) (begun : List Construct) (r : Reading) : Prop :=
  r.reader.supply ≤ s ∧ r.begun = begun

/-! ## Tokens -/

theorem spends_lexing (h : r.reader.ahead = none) (hr : Has s begun r) :
    Yields r (lexing Lexer.token) fun t r' =>
      Has (s - t.weight) begun r' ∧ t.weight ≤ s ∧ r'.reader.ahead = none := by
  obtain ⟨hsupply, hbegun⟩ := hr
  have htaken := Lexer.takes_token r.reader.lexer
  show Ends (lexing Lexer.token r) _ _
  rw [lexing]
  rcases hlexer : Lexer.token r.reader.lexer with ⟨t, lexer⟩ | ⟨e, lexer⟩
  · have hle := (htaken.of_ok hlexer).characters_le
    have hbefore : r.reader.supply = r.reader.lexer.input.characters := by
      rw [TermReader.supply, h]
      rfl
    have hafter : { r.reader with lexer }.supply = lexer.input.characters := by
      rw [TermReader.supply, h]
      rfl
    refine ⟨⟨?_, hbegun⟩, ?_, h⟩
    · show { r.reader with lexer }.supply ≤ _
      omega
    · omega
  · trivial

/-- A token that was looked at is the next one. -/
theorem spends_nextToken_of_ahead {t : Token} (hahead : r.reader.ahead = some t) (hr : Has s begun r) :
    Yields r nextToken fun t' r' =>
      t' = t ∧ Has (s - t.weight) begun r' ∧ t.weight ≤ s ∧ r'.reader.ahead = none := by
  obtain ⟨⟨lexer, ahead, placeholders, doubleQuotes⟩, store, names, begun'⟩ := r
  obtain ⟨hle, hbegun⟩ := hr
  cases hahead
  have hsupply : lexer.input.characters + t.weight ≤ s := hle
  refine ⟨rfl, ⟨?_, hbegun⟩, ?_, rfl⟩
  · show lexer.input.characters + 0 ≤ s - t.weight
    omega
  · omega

theorem spends_nextToken (hr : Has s begun r) :
    Yields r nextToken fun t r' =>
      Has (s - t.weight) begun r' ∧ t.weight ≤ s ∧ r'.reader.ahead = none := by
  rcases hahead : r.reader.ahead with _ | t
  · refine yields_get ?_
    rw [hahead]
    exact spends_lexing hahead hr
  · refine (spends_nextToken_of_ahead hahead hr).imp ?_ fun _ => id
    rintro t' r' ⟨rfl, h⟩
    exact h

theorem has_peekToken (hr : Has s begun r) :
    Yields r peekToken fun t r' => Has s begun r' ∧ r'.reader.ahead = some t := by
  refine yields_get ?_
  split
  · rename_i t hahead
    exact ⟨hr, hahead⟩
  · rename_i hahead
    refine (spends_lexing hahead hr).bind ?_
    intro t r' h
    obtain ⟨⟨hle, hbegun⟩, hweight, hahead'⟩ := h
    have hsupply : r'.reader.supply = r'.reader.lexer.input.characters := by
      rw [TermReader.supply, hahead']
      rfl
    refine yields_modify ⟨⟨?_, hbegun⟩, rfl⟩
    show r'.reader.lexer.input.characters + t.weight ≤ s
    omega

theorem spends_expect (token : Token) (hr : Has s begun r) :
    Yields r (expect token) fun _ r' =>
      Has (s - token.weight) begun r' ∧ token.weight ≤ s ∧ r'.reader.ahead = none := by
  refine (spends_nextToken hr).bind ?_
  intro found r' h
  split
  · rename_i heq
    rw [heq] at h
    exact h
  · trivial

theorem has_building {α : Type} (f : Store → α × Store) (hr : Has s begun r) :
    Yields r (building f) fun _ r' => Has s begun r' := hr

/-! ## Operands -/

/-- What the phase and the constructs begun weigh. -/
def ReadPhase.weight (phase : ReadPhase) (r : Reading) : Nat :=
  2 * r.begun.length + phase.casesOn 2 (fun _ _ => 1) (fun _ => 0)

/-- At most `s` characters are to come, and the phase and the constructs weigh at most `n`. -/
def Costs (s n : Nat) (phase : ReadPhase) (r : Reading) : Prop :=
  r.reader.supply ≤ s ∧ ReadPhase.weight phase r ≤ n

theorem Costs.mono {s' n' : Nat} {phase : ReadPhase} (h : Costs s n phase r) (hs : s ≤ s')
    (hn : n ≤ n') : Costs s' n' phase r :=
  ⟨Nat.le_trans h.1 hs, Nat.le_trans h.2 hn⟩

theorem costs_complete {t : Ref} {p : Nat} (hr : Has s begun r)
    (hn : 2 * begun.length + 1 ≤ n) : Costs s n (.complete t p) r := by
  obtain ⟨hsupply, rfl⟩ := hr
  exact ⟨hsupply, hn⟩

theorem costs_enter {construct : Construct} {limit : Nat} (hr : Has s begun r)
    (hn : 2 * begun.length + 6 ≤ n) : Yields r (enter construct limit) (Costs s n) := by
  obtain ⟨hsupply, rfl⟩ := hr
  refine yields_modify ⟨hsupply, ?_⟩
  show 2 * (r.begun.length + 1 + 1) + 2 ≤ n
  omega

theorem costs_variableNamed (name : String) (hr : Has s begun r) :
    Yields r (variableNamed name) fun _ r' => Has s begun r' := by
  unfold variableNamed
  split
  · exact has_building _ hr
  · refine yields_get ?_
    split
    · exact hr
    · refine (has_building _ hr).bind ?_
      intro t r' hr'
      exact yields_modify hr'

theorem has_doubleQuoted (text : String) (hr : Has s begun r) :
    Yields r (doubleQuoted text) fun _ r' => Has s begun r' := by
  refine yields_get ?_
  split <;> exact has_building _ hr

theorem costs_plainName (name : String) (hr : Has s begun r) (hn : 2 * begun.length + 1 ≤ n) :
    Yields r (plainName name) (Costs s n) := by
  have hatom : ∀ text, Yields r (building (·.atom text) >>= fun t => pure (.complete t 0))
      (Costs s n) := by
    intro text
    refine (has_building _ hr).bind ?_
    intro t r' hr'
    exact costs_complete hr' hn
  unfold plainName
  split
  · refine yields_get ?_
    split
    · exact hatom _
    · trivial
    · rename_i arg rest hplaceholders
      refine yields_modify ?_
      have hr' : Has s begun { r with reader := { r.reader with placeholders := some rest } } := hr
      refine (has_building _ hr').bind ?_
      intro t r'' hr''
      exact costs_complete hr'' hn
  · exact hatom _

theorem has_limit (hr : Has s begun r) : Yields r limit fun _ r' => Has s begun r' := by
  refine yields_get ?_
  split <;> exact hr

theorem has_startsOperand (hr : Has s begun r) :
    Yields r (startsOperand ops) fun _ r' => Has s begun r' := by
  refine (has_peekToken hr).bind ?_
  intro t r' h
  split <;> exact h.1

theorem costs_operatorOrName (name : String) (hr : Has s begun r) (hn : 2 * begun.length + 6 ≤ n) :
    Yields r (operatorOrName ops name) (Costs s n) := by
  have hn' : 2 * begun.length + 1 ≤ n := by omega
  unfold operatorOrName
  split
  · refine (has_limit hr).bind ?_
    intro limit r' hr'
    split
    · refine (has_startsOperand hr').bind ?_
      intro starts r'' hr''
      split
      · exact costs_enter hr'' hn
      · exact costs_plainName name hr'' hn'
    · exact costs_plainName name hr' hn'
  · exact costs_plainName name hr hn'

theorem costs_nameOperand (name : String) (hr : Has s begun r) (hn : 2 * begun.length + 6 ≤ n) :
    Yields r (nameOperand ops name) (Costs s n) := by
  refine (has_peekToken hr).bind ?_
  intro t r' h
  obtain ⟨hr', hahead⟩ := h
  split
  · refine (spends_nextToken hr').bind ?_
    intro t' r'' h'
    exact (costs_enter h'.1 hn).imp (fun _ _ hc => hc.mono (Nat.sub_le _ _) (Nat.le_refl _)) fun _ => id
  · split
    · refine (spends_nextToken hr').bind ?_
      intro t' r'' h'
      refine (has_building _ h'.1).bind ?_
      intro u r₃ hr₃
      exact (costs_complete hr₃ (by omega)).mono (Nat.sub_le _ _) (Nat.le_refl _)
    · exact costs_operatorOrName name hr' hn
  · exact costs_operatorOrName name hr' hn

/-- An operand takes a token.  What comes after a token that has taken no character is complete. -/
theorem costs_beginOperand (hr : Has s begun r) :
    Yields r (beginOperand ops) fun phase r' =>
      Costs s (2 * begun.length + 1) phase r' ∨
        0 < s ∧ Costs (s - 1) (2 * begun.length + 6) phase r' := by
  refine (spends_nextToken hr).bind ?_
  intro t r' h
  obtain ⟨hr', hle, -⟩ := h
  have hcomplete : ∀ m : ReadM Ref, Yields r' m (fun _ r'' => Has (s - t.weight) begun r'') →
      Yields r' (m >>= fun u => pure (.complete u 0)) fun phase r'' =>
        Costs s (2 * begun.length + 1) phase r'' ∨
          0 < s ∧ Costs (s - 1) (2 * begun.length + 6) phase r'' := by
    intro m hm
    refine hm.bind ?_
    intro u r'' hr''
    exact .inl ((costs_complete hr'' (Nat.le_refl _)).mono (Nat.sub_le _ _) (Nat.le_refl _))
  -- Any other token has taken a character.
  have hother : t.weight = 1 → ∀ {s' : Nat} {r₁ : Reading} {m : ReadM ReadPhase},
      s' ≤ s - t.weight → Yields r₁ m (Costs s' (2 * begun.length + 6)) →
      Yields r₁ m fun phase r'' => Costs s (2 * begun.length + 1) phase r'' ∨
        0 < s ∧ Costs (s - 1) (2 * begun.length + 6) phase r'' := by
    intro hweight s' r₁ m hs' hm
    refine hm.imp ?_ fun _ => id
    intro phase r'' hc
    rw [hweight] at hle hs'
    exact .inr ⟨hle, hc.mono hs' (Nat.le_refl _)⟩
  split
  · rename_i name
    exact hother rfl (Nat.le_refl _) (costs_nameOperand name hr' (Nat.le_refl _))
  · exact hcomplete _ (has_building _ hr')
  · exact hcomplete _ (costs_variableNamed _ hr')
  · exact hcomplete _ (has_doubleQuoted _ hr')
  · exact hcomplete _ (has_building _ hr')
  · exact hother rfl (Nat.le_refl _) (costs_enter hr' (Nat.le_refl _))
  · exact hother rfl (Nat.le_refl _) (costs_enter hr' (Nat.le_refl _))
  · refine (has_peekToken hr').bind ?_
    intro t' r'' h'
    obtain ⟨hr'', -⟩ := h'
    split
    · refine (spends_nextToken hr'').bind ?_
      intro t'' r₃ h''
      exact hother rfl (Nat.sub_le _ _) (costs_nameOperand _ h''.1 (Nat.le_refl _))
    · exact hother rfl (Nat.le_refl _) (costs_enter hr'' (Nat.le_refl _))
  · refine (has_peekToken hr').bind ?_
    intro t' r'' h'
    obtain ⟨hr'', -⟩ := h'
    split
    · refine (spends_nextToken hr'').bind ?_
      intro t'' r₃ h''
      exact hother rfl (Nat.sub_le _ _) (costs_nameOperand _ h''.1 (Nat.le_refl _))
    · exact hother rfl (Nat.le_refl _) (costs_enter hr'' (Nat.le_refl _))
  · trivial

/-! ## Constructs -/

/-- Only a token that takes a character continues an expression. -/
theorem has_continuation? (limit p : Nat) (hr : Has s begun r) :
    Yields r (continuation? ops limit p) fun found r' =>
      Has s begun r' ∧ (found.isSome → ∃ t, r'.reader.ahead = some t ∧ t.weight = 1) := by
  refine (has_peekToken hr).bind ?_
  intro t r' h
  obtain ⟨hr', hahead⟩ := h
  refine ⟨hr', ?_⟩
  intro hfound
  refine ⟨t, hahead, if_neg ?_⟩
  rintro rfl
  cases hfound

theorem costs_giveExpression (limit : Nat) (t : Ref) (p : Nat) (hr : Has s begun r) :
    Yields r (giveExpression ops limit t p) fun phase r' =>
      Costs s (2 * begun.length + 1) phase r' ∨
        0 < s ∧ Costs (s - 1) (2 * begun.length + 8) phase r' := by
  refine (has_continuation? limit p hr).bind ?_
  intro found r' h
  obtain ⟨hr', hfound⟩ := h
  split
  · exact .inl (costs_complete hr' (Nat.le_refl _))
  · obtain ⟨t', hahead, hweight⟩ := hfound rfl
    refine (spends_nextToken_of_ahead hahead hr').bind ?_
    intro t'' r'' h''
    obtain ⟨-, ⟨hsupply, hbegun⟩, hle, -⟩ := h''
    rw [hweight] at hsupply hle
    have hr'' : Has (s - 1) (.expression limit :: begun)
        { r'' with begun := .expression limit :: r''.begun } :=
      ⟨hsupply, congrArg (Construct.expression limit :: ·) hbegun⟩
    refine yields_modify ((costs_enter hr'' (Nat.le_refl _)).imp ?_ fun _ => id)
    intro phase r₃ hc
    exact .inr ⟨hle, hc⟩
  · obtain ⟨t', hahead, hweight⟩ := hfound rfl
    refine (spends_nextToken_of_ahead hahead hr').bind ?_
    intro t'' r'' h''
    obtain ⟨-, hr'', hle, -⟩ := h''
    rw [hweight] at hr'' hle
    refine (has_building _ hr'').bind ?_
    intro u r₃ h₃
    obtain ⟨hsupply, hbegun⟩ := h₃
    refine yields_modify (.inr ⟨hle, ?_⟩)
    have hhas : Has (s - 1) (.expression limit :: begun) { r₃ with begun := .expression limit :: r₃.begun } :=
      ⟨hsupply, congrArg (Construct.expression limit :: ·) hbegun⟩
    exact costs_complete hhas (by rw [List.length_cons]; omega)

/-- A construct is completed, or a token is taken. -/
theorem costs_giveOperand (construct : Construct) (t : Ref) (p : Nat) (hr : Has s begun r) :
    Yields r (giveOperand ops construct t p) fun phase r' =>
      Costs s (2 * begun.length + 1) phase r' ∨
        0 < s ∧ Costs (s - 1) (2 * begun.length + 8) phase r' := by
  have hbuild : ∀ {s' p' : Nat} {r' : Reading} (f : Store → Ref × Store), s' ≤ s →
      Has s' begun r' → Yields r' (building f >>= fun u => pure (.complete u p')) fun phase r'' =>
        Costs s (2 * begun.length + 1) phase r'' ∨
          0 < s ∧ Costs (s - 1) (2 * begun.length + 8) phase r'' := by
    intro s' p' r' f hs' hr'
    refine (has_building f hr').bind ?_
    intro u r'' hr''
    exact .inl ((costs_complete hr'' (Nat.le_refl _)).mono hs' (Nat.le_refl _))
  have henter : ∀ {t' : Token} {r' : Reading} (construct' : Construct) (limit : Nat),
      t'.weight = 1 → t'.weight ≤ s → Has (s - t'.weight) begun r' →
      Yields r' (enter construct' limit) fun phase r'' =>
        Costs s (2 * begun.length + 1) phase r'' ∨
          0 < s ∧ Costs (s - 1) (2 * begun.length + 8) phase r'' := by
    intro t' r' construct' limit hweight hle hr'
    rw [hweight] at hle hr'
    refine (costs_enter (n := 2 * begun.length + 8) hr' (by omega)).imp ?_ fun _ => id
    intro phase r'' hc
    exact .inr ⟨hle, hc⟩
  cases construct with
  | expression limit => exact costs_giveExpression limit t p hr
  | before name priority => exact hbuild _ (Nat.le_refl _) hr
  | between name priority left => exact hbuild _ (Nat.le_refl _) hr
  | args name items =>
    refine (spends_nextToken hr).bind ?_
    intro t' r' h
    obtain ⟨hr', hle, -⟩ := h
    split
    · exact henter _ _ rfl hle hr'
    · exact hbuild _ (Nat.sub_le _ _) hr'
    · trivial
  | group =>
    refine (spends_expect .close hr).bind ?_
    intro _ r' h
    exact .inl ((costs_complete h.1 (Nat.le_refl _)).mono (Nat.sub_le _ _) (Nat.le_refl _))
  | list items =>
    refine (spends_nextToken hr).bind ?_
    intro t' r' h
    obtain ⟨hr', hle, -⟩ := h
    split
    · exact henter _ _ rfl hle hr'
    · exact henter _ _ rfl hle hr'
    · exact hbuild _ (Nat.sub_le _ _) hr'
    · trivial
  | listTail items =>
    refine (spends_expect .closeList hr).bind ?_
    intro _ r' h
    exact hbuild _ (Nat.sub_le _ _) h.1
  | curly =>
    refine (spends_expect .closeCurly hr).bind ?_
    intro _ r' h
    exact hbuild _ (Nat.sub_le _ _) h.1

/-! ## Steps -/

/-- How many steps the reading can still take at most: a character is worth eight, since it may begin
an operator with its operand. -/
def cost (phase : ReadPhase) (r : Reading) : Nat := 8 * r.reader.supply + ReadPhase.weight phase r

/-- **Every step of reading lowers the cost**, and no step adds to what there is to read. -/
theorem lowers_step (ops : OperatorTable) {phase : ReadPhase} (hphase : ∀ t, phase ≠ .whole t)
    (r : Reading) :
    Yields r (step ops phase) fun phase' r' =>
      r'.reader.supply ≤ r.reader.supply ∧ cost phase' r' < cost phase r := by
  cases phase with
  | operand =>
    refine (costs_beginOperand ⟨Nat.le_refl _, rfl⟩).imp ?_ fun _ => id
    intro phase' r' h
    have hcost : cost .operand r = 8 * r.reader.supply + (2 * r.begun.length + 2) := rfl
    rw [hcost, cost]
    obtain h | ⟨hpos, h⟩ := h
    · obtain ⟨hsupply, hweight⟩ := h
      constructor <;> omega
    · obtain ⟨hsupply, hweight⟩ := h
      constructor <;> omega
  | complete t p =>
    have hcost : cost (.complete t p) r = 8 * r.reader.supply + (2 * r.begun.length + 1) := rfl
    rw [hcost]
    refine yields_get ?_
    split
    · rename_i hbegun
      refine ⟨Nat.le_refl _, ?_⟩
      show 8 * r.reader.supply + (2 * r.begun.length + 0) < _
      omega
    · rename_i construct rest hbegun
      have hlength : r.begun.length = rest.length + 1 := by rw [hbegun, List.length_cons]
      have hrest : Has r.reader.supply rest { r with begun := rest } := ⟨Nat.le_refl _, rfl⟩
      refine yields_modify ((costs_giveOperand construct t p hrest).imp ?_ fun _ => id)
      intro phase' r' h
      rw [cost]
      obtain h | ⟨hpos, h⟩ := h
      · obtain ⟨hsupply, hweight⟩ := h
        constructor <;> omega
      · obtain ⟨hsupply, hweight⟩ := h
        constructor <;> omega
  | whole t => exact absurd rfl (hphase t)

/-! ## Runs -/

/-- From the phase on, reading takes the given number of steps and then has a complete term or an
error.  No number of steps is too many. -/
inductive Comes (ops : OperatorTable) :
    Nat → ReadPhase → Reading → EStateM.Result ReadError Reading Ref → Prop
  /-- The term is complete. -/
  | whole (t : Ref) (r : Reading) : Comes ops 0 (.whole t) r (.ok t r)
  /-- The next step is an error. -/
  | failed {phase : ReadPhase} {r r' : Reading} {e : ReadError}
    (h : step ops phase r = .error e r') : Comes ops 1 phase r (.error e r')
  /-- One more step. -/
  | step {n : Nat} {phase phase' : ReadPhase} {r r' : Reading}
    {result : EStateM.Result ReadError Reading Ref} (hphase : ∀ t, phase ≠ .whole t)
    (h : step ops phase r = .ok phase' r') (hrest : Comes ops n phase' r' result) :
    Comes ops (n + 1) phase r result

/-- What is made of the result of the steps: a full stop must come after a complete term. -/
def stopped : EStateM.Result ReadError Reading Ref → EStateM.Result ReadError Reading Ref
  | .ok t r => (do expect .stop; pure t : ReadM Ref) r
  | .error e r => .error e r

/-- Every reading comes to a result, within as many steps as it costs. -/
theorem exists_comes (ops : OperatorTable) (phase : ReadPhase) (r : Reading) :
    ∃ n ≤ cost phase r, ∃ result, Comes ops n phase r result ∧
      Ends result (fun _ r' => r'.reader.supply ≤ r.reader.supply) fun _ => True := by
  induction hcost : cost phase r using Nat.strongRecOn generalizing phase r with
  | ind c ih =>
  by_cases hphase : ∀ t, phase ≠ .whole t
  · have hlowers := lowers_step ops hphase r
    rcases hstep : step ops phase r with ⟨phase', r'⟩ | ⟨e, r'⟩
    · obtain ⟨hsupply, hlt⟩ := hlowers.of_ok hstep
      rw [hcost] at hlt
      obtain ⟨n, hn, result, hcomes, hends⟩ := ih _ hlt phase' r' rfl
      refine ⟨n + 1, by omega, result, .step hphase hstep hcomes, hends.imp ?_ fun _ => id⟩
      intro _ r'' hle
      exact Nat.le_trans hle hsupply
    · refine ⟨1, ?_, _, .failed hstep, trivial⟩
      rw [← hcost, cost]
      cases phase with
      | operand =>
        show 1 ≤ 8 * r.reader.supply + (2 * r.begun.length + 2)
        omega
      | complete t p =>
        show 1 ≤ 8 * r.reader.supply + (2 * r.begun.length + 1)
        omega
      | whole t => exact absurd rfl (hphase t)
  · rw [not_forall_not] at hphase
    obtain ⟨t, rfl⟩ := hphase
    exact ⟨0, Nat.zero_le _, _, .whole t r, Nat.le_refl _⟩

/-- With enough steps, the bound on them does not show. -/
theorem Comes.steps_eq {phase : ReadPhase} {result : EStateM.Result ReadError Reading Ref}
    (h : Comes ops n phase r result) {bound : Nat} (hbound : n ≤ bound) :
    steps ops bound phase r = result := by
  induction h generalizing bound with
  | whole t r =>
    cases bound with
    | zero => rfl
    | succ bound => rfl
  | @failed phase r r' e h =>
    have hphase : ∀ t, phase ≠ .whole t := by
      rintro t rfl
      cases h
    cases bound with
    | zero => omega
    | succ bound =>
      rw [steps.eq_3 _ _ _ hphase]
      exact bind_eq_of_error h
  | step hphase h hrest ih =>
    cases bound with
    | zero => omega
    | succ bound =>
      rw [steps.eq_3 _ _ _ hphase, bind_eq_of_ok h]
      exact ih (Nat.le_of_succ_le_succ hbound)

/-- There is only one result. -/
theorem Comes.unique {n' : Nat} {phase : ReadPhase} {result result' : EStateM.Result ReadError Reading Ref}
    (h : Comes ops n phase r result) (h' : Comes ops n' phase r result') : result = result' := by
  have hsteps := h.steps_eq (Nat.le_max_left n n')
  have hsteps' := h'.steps_eq (Nat.le_max_right n n')
  exact hsteps.symm.trans hsteps'

end Reading

namespace TermReader

variable {r r' : TermReader} {s s' : Store} {ops : OperatorTable} {t : Ref}

/-- A term is about to be read. -/
def beginning (r : TermReader) (s : Store) : Reading :=
  { reader := r, store := s, begun := [.expression 1200] }

/-- What is given of a reading that has ended. -/
def outcome : EStateM.Result ReadError Reading Ref → Except ReadError Ref × TermReader × Store
  | .ok t reading => (.ok t, reading.reader, reading.store)
  | .error e reading => (.error e, reading.reader, reading.store)

theorem read_eq (ops : OperatorTable) (r : TermReader) (s : Store) :
    r.read ops s = outcome (Reading.term ops (r.beginning s)) := by
  rw [read, beginning]
  cases Reading.term ops { reader := r, store := s, begun := [.expression 1200] } with
  | ok t reading => rfl
  | error e reading => rfl

/-- Reading a term ends: its steps are no more than eight for each character and four. -/
theorem term_ends (ops : OperatorTable) (r : TermReader) (s : Store) :
    ∃ n ≤ 8 * r.supply + 4, ∃ result, Reading.Comes ops n .operand (r.beginning s) result ∧
      Reading.term ops (r.beginning s) = Reading.stopped result ∧
      Ends (Reading.stopped result) (fun _ reading => reading.reader.supply < r.supply)
        fun _ => True := by
  obtain ⟨n, hn, result, hcomes, hends⟩ := Reading.exists_comes ops .operand (r.beginning s)
  refine ⟨n, hn, result, hcomes, ?_, ?_⟩
  · -- The bound is taken from the input, which lacks the token that was looked at.
    have hbound : n ≤ 8 * r.lexer.input.length + 32 := by
      have hsupply : r.supply ≤ r.lexer.input.characters + 1 := by
        rw [supply]
        cases r.ahead with
        | none => exact Nat.le_succ _
        | some t => exact Nat.add_le_add_left t.weight_le _
      have hle := Input.characters_le_length r.lexer.input
      have hn' : n ≤ 8 * r.supply + 4 := hn
      omega
    have hsteps := hcomes.steps_eq hbound
    show (Reading.steps ops (8 * r.lexer.input.length + 32) .operand >>= fun t => do
      Reading.expect .stop
      pure t) (r.beginning s) = _
    cases result with
    | ok t reading => exact bind_eq_of_ok hsteps
    | error e reading => exact bind_eq_of_error hsteps
  · cases result with
    | ok t reading =>
      have hsupply : reading.reader.supply ≤ r.supply := hends
      refine (Reading.spends_expect .stop ⟨Nat.le_refl _, rfl⟩).bind ?_
      intro _ reading' h
      obtain ⟨⟨hle, -⟩, hpos, -⟩ := h
      have hweight : Token.weight .stop = 1 := rfl
      show reading'.reader.supply < r.supply
      omega
    | error e reading => trivial

theorem supply_atEnd (h : (r.atEnd).1 = .ok false) : (r.atEnd).2.supply ≤ r.supply := by
  by_cases hahead : r.ahead.isSome = true
  · rw [atEnd, if_pos hahead]
  · rw [atEnd, if_neg hahead] at h ⊢
    have hadvances := Lexer.advances_atEnd r.lexer
    rcases hlexer : Lexer.atEnd r.lexer with ⟨isEnd, lexer⟩ | ⟨e, lexer⟩
    · exact Nat.add_le_add_right (hadvances.of_ok hlexer).characters_le _
    · rw [hlexer] at h
      cases h

/-- A term takes at least the character of its full stop. -/
theorem supply_next? (h : r.next? ops s = (.ok (some t), r', s')) : r'.supply < r.supply := by
  have hatEnd := supply_atEnd (r := r)
  unfold next? at h
  rcases hend : r.atEnd with ⟨e | isEnd, r₁⟩
  · rw [hend] at h
    cases h
  rw [hend] at h hatEnd
  cases isEnd with
  | true => cases h
  | false =>
    have hle : r₁.supply ≤ r.supply := hatEnd rfl
    obtain ⟨n, -, result, -, hterm, hends⟩ := term_ends ops r₁ s
    dsimp only at h
    rw [read_eq, hterm] at h
    generalize Reading.stopped result = final at h hends
    cases final with
    | ok t reading =>
      cases h
      exact Nat.lt_of_lt_of_le hends hle
    | error e reading => cases h

/-- Reads terms until there is none or the first error, which is given if it was met. -/
def readAll (ops : OperatorTable) (r : TermReader) (s : Store) :
    List Ref × Option ReadError × TermReader × Store :=
  match _ : r.next? ops s with
  | (.ok (some t), r', s') =>
    let (ts, rest) := readAll ops r' s'
    (t :: ts, rest)
  | (.ok none, r', s') => ([], none, r', s')
  | (.error e, r', s') => ([], some e, r', s')
  termination_by r.supply
  decreasing_by exact supply_next? ‹_›

theorem length_readAll (ops : OperatorTable) (r : TermReader) (s : Store) :
    (r.readAll ops s).1.length ≤ r.supply := by
  fun_induction readAll ops r s with
  | case1 r s t r' s' h ts rest heq ih =>
    have hlt := supply_next? h
    rw [heq] at ih
    rw [List.length_cons]
    exact Nat.lt_of_le_of_lt ih hlt
  | case2 => exact Nat.zero_le _
  | case3 => exact Nat.zero_le _

/-- **Reading ends, whatever the text.**  From every state of a reader, the steps of reading a term come
to a term or an error, after a number of steps that is linear in the characters that come; and what the
reader gives is that result, so its own bound on the steps is never reached.  Reading on until there is
no term or an error gives no more terms than there are characters. -/
theorem reading_ends (ops : OperatorTable) (failure : Option String) (bytes : List UInt8)
    (quotes : DoubleQuotes) (placeholders : Option (List Term)) :
    (∀ (r : TermReader) (s : Store), ∃ n ≤ 8 * r.supply + 4, ∃ result,
      Reading.Comes ops n .operand (r.beginning s) result ∧
        r.read ops s = outcome (Reading.stopped result)) ∧
    ∀ s, ((ofInput (.ofBytes failure bytes) quotes placeholders).readAll ops s).1.length ≤
      (Input.ofBytes failure bytes).characters := by
  constructor
  · intro r s
    obtain ⟨n, hn, result, hcomes, hterm, -⟩ := term_ends ops r s
    exact ⟨n, hn, result, hcomes, by rw [read_eq, hterm]⟩
  · intro s
    exact length_readAll ops _ s

end TermReader

end Clausal

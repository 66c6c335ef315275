import Clausal.TermSource
import Clausal.Proofs.Actions
import Clausal.Proofs.Store.Building

/-! # What is read is new

A source gives terms whose cells are all new (`TermSource.next?_reads`), whether or not it ends in an error
later.  Reading keeps one invariant, `Reading.Sound`: the store is the one that reading began with and
new cells, and everything that the reader holds on to – the operands of the constructs begun, the
variables by name – is among them.  Each function of the reader is described by the same triple
(`Reading.Keeps`), in which the term that it gives, if any, is new as well.

The integers that tokens stand for are in the representation of their size, because all of them are
made by `Literal.ofInt`.
-/

namespace Clausal

open Store

/-! ## Tokens -/

/-- The constant that a token is, if it is one, is in the representation of its size. -/
def Token.Canonical : Token → Prop
  | .literal l => l.Canonical
  | _ => True

theorem Literal.neg_canonical (l : Literal) : l.neg.Canonical := by
  cases l with
  | atom name => trivial
  | small n => exact ofInt_canonical _
  | big n => exact ofInt_canonical _
  | float x => trivial

-- No proof about tokens should compute with the bounds of 64 bits.
attribute [local irreducible] Literal.ofInt

namespace Lexer

variable {α : Type}

/-- Whatever the action returns has the property. -/
def Gives (m : Lexing α) (P : α → Prop) : Prop := ∀ lx, Ends (m lx) (fun a _ => P a) fun _ => True

theorem gives_true (m : Lexing α) : Gives m fun _ => True := by
  intro lx
  rcases h : m lx with ⟨a, lx'⟩ | ⟨e, lx'⟩ <;> trivial

theorem Gives.bind {β : Type} {m : Lexing α} {f : α → Lexing β} {P : α → Prop} {P' : β → Prop}
    (h : Gives m P) (hf : ∀ a, P a → Gives (f a) P') : Gives (m >>= f) P' :=
  fun lx => (h lx).bind fun a lx' ha => hf a ha lx'

/-- An action in front that the result does not depend on. -/
theorem Gives.after {β : Type} {m : Lexing α} {f : α → Lexing β} {P : β → Prop}
    (hf : ∀ a, Gives (f a) P) : Gives (m >>= f) P :=
  (gives_true m).bind fun a _ => hf a

theorem gives_pure {P : α → Prop} {a : α} (h : P a) : Gives (pure a) P := fun _ => h

theorem gives_map {β : Type} {m : Lexing α} {f : α → β} {P : β → Prop} (h : ∀ a, P (f a)) :
    Gives (f <$> m) P :=
  fun lx => (((gives_true m) lx).imp (fun a _ _ => h a) fun _ => id).map

theorem canonical_ofInt (n : Int) : (Token.literal (.ofInt n)).Canonical := by
  simp only [Token.Canonical, Literal.ofInt_canonical]

theorem gives_integerToken (radix : Nat) (digits : List Char) :
    Gives (pure (integerToken radix digits)) Token.Canonical := by
  simp only [integerToken]
  exact gives_pure (canonical_ofInt _)

theorem gives_charCodeToken : Gives charCodeToken Token.Canonical := by
  refine .after fun _ => .after fun c => ?_
  dsimp only
  split
  · exact .after fun d => .after fun code => gives_pure (canonical_ofInt _)
  · split
    · exact .after fun _ => gives_pure (canonical_ofInt _)
    · exact gives_pure (canonical_ofInt _)

theorem gives_decimalToken (first : Char) : Gives (decimalToken first) Token.Canonical := by
  refine .after fun digits => .after fun point => ?_
  split
  · refine .after fun c => ?_
    split
    · exact .after fun _ => .after fun _ => gives_pure trivial
    · exact .after fun _ => gives_integerToken _ _
  · exact gives_integerToken _ _

theorem gives_radixToken (letter : Char) (radix : Nat) :
    Gives (radixToken letter radix) Token.Canonical := by
  refine .after fun _ => .after fun c => ?_
  split
  · exact gives_map fun digits => by
      simp only [integerToken]
      exact canonical_ofInt _
  · exact .after fun _ => gives_integerToken _ _

theorem gives_numberToken (c : Char) : Gives (numberToken c) Token.Canonical := by
  refine .after fun _ => ?_
  by_cases hzero : c = '0'
  · simp only [if_pos hzero]
    refine .after fun mark => ?_
    split
    · exact gives_charCodeToken
    · split
      · exact gives_radixToken _ _
      · exact gives_decimalToken c
    · exact gives_decimalToken c
  · simp only [if_neg hzero]
    exact gives_decimalToken c

theorem gives_nameToken (c : Char) : Gives (nameToken c) Token.Canonical := by
  have hname : ∀ name : String, Gives (pure (Token.literal (.atom name))) Token.Canonical :=
    fun _ => gives_pure trivial
  unfold nameToken
  dsimp only
  split
  · exact .after fun _ => .after hname
  · split
    · exact .after hname
    · split
      · exact .after fun _ => hname _
      · split
        · exact .after hname
        · exact .after hname

theorem gives_stopToken : Gives stopToken Token.Canonical := by
  refine .after fun _ => .after fun c => ?_
  split
  · split
    · exact gives_pure trivial
    · exact .after fun _ => gives_nameToken '.'
  · exact gives_pure trivial

theorem canonical_of_punctuation? {c : Char} {afterLayout : Bool} {t : Token}
    (h : punctuation? c afterLayout = some t) : t.Canonical := by
  unfold punctuation? at h
  split at h <;> cases h <;> first | trivial | (split <;> trivial)

/-- **Constants are in the representation of their size.** -/
theorem gives_token : Gives token Token.Canonical := by
  refine .after fun before => .after fun seen => .after fun c => ?_
  split
  · exact .after fun name => gives_pure trivial
  · split
    · exact .after fun _ => gives_pure (canonical_of_punctuation? ‹_›)
    · split
      · exact gives_map fun _ => trivial
      · split
        · exact gives_map fun _ => trivial
        · split
          · exact gives_stopToken
          · split
            · exact gives_numberToken c
            · exact gives_nameToken c

end Lexer

/-! ## Reading -/

/-- The operands that a construct has got so far. -/
def Construct.operands : Construct → List Ref
  | .between _ _ left => [left]
  | .args _ items | .list items | .listTail items => items
  | _ => []

namespace TermReader

/-- The tokens and terms that a reader holds on to are well made. -/
structure Sound (reader : TermReader) : Prop where
  /-- The token that was looked at. -/
  ahead : ∀ token, reader.ahead = some token → token.Canonical
  /-- The terms for the placeholders. -/
  placeholders : ∀ args, reader.placeholders = some args → ∀ a ∈ args, a.WellMade

end TermReader

namespace Reading

variable {base : Store} {r r' r'' : Reading} {α : Type}

/-- The invariant of reading: whatever the reader holds on to is among the new cells. -/
structure Sound (base : Store) (r : Reading) : Prop where
  /-- The reader is sound. -/
  reader : r.reader.Sound
  /-- There are only new cells. -/
  adds : Adds base r.store
  /-- Variables are new. -/
  names : ∀ p ∈ r.names, New base r.store p.2
  /-- Operands are new. -/
  begun : ∀ construct ∈ r.begun, ∀ t ∈ construct.operands, New base r.store t

/-- The invariant holds, and no cell was given back. -/
structure Continues (base : Store) (r r' : Reading) : Prop where
  /-- The invariant. -/
  sound : Sound base r'
  /-- The number of cells. -/
  size_le : r.store.size ≤ r'.store.size

theorem Continues.refl (h : Sound base r) : Continues base r r := ⟨h, Nat.le_refl _⟩

theorem Continues.trans (h : Continues base r r') (h' : Continues base r' r'') :
    Continues base r r'' :=
  ⟨h'.sound, h.size_le.trans h'.size_le⟩

/-- Any action of reading keeps the invariant; if it succeeds, `P` holds of what it gives. -/
abbrev Keeps (base : Store) (r : Reading) (m : ReadM α) (P : α → Store → Prop) : Prop :=
  Ends (m r) (fun a r' => Continues base r r' ∧ P a r'.store) fun r' => Adds base r'.store

/-- Going on after an action. -/
theorem Keeps.bind {β : Type} {m : ReadM α} {f : α → ReadM β} {P : α → Store → Prop}
    {P' : β → Store → Prop} (h : Keeps base r m P)
    (hf : ∀ a r', Continues base r r' → P a r'.store → Keeps base r' (f a) P') :
    Keeps base r (m >>= f) P' := by
  refine Ends.bind h fun a r' ha => ?_
  refine (hf a r' ha.1 ha.2).imp (fun b r'' hb => ?_) fun _ => id
  exact ⟨ha.1.trans hb.1, hb.2⟩

theorem keeps_pure (h : Sound base r) {a : α} {P : α → Store → Prop} (ha : P a r.store) :
    Keeps base r (pure a) P :=
  ⟨.refl h, ha⟩

/-- Looking at the state. -/
theorem keeps_get {f : Reading → ReadM α} {P : α → Store → Prop} (h : Keeps base r (f r) P) :
    Keeps base r (get >>= f) P :=
  h

/-- Changing the state. -/
theorem keeps_modify {g : Reading → Reading} {f : PUnit → ReadM α} {P : α → Store → Prop}
    (hg : Continues base r (g r)) (hf : Sound base (g r) → Keeps base (g r) (f ⟨⟩) P) :
    Keeps base r (modify g >>= f) P :=
  (hf hg.sound).imp (fun _ _ h => ⟨hg.trans h.1, h.2⟩) fun _ => id

/-- Anything that a term is read from and that is new. -/
def PhaseNew (base : Store) (phase : ReadPhase) (s : Store) : Prop :=
  match phase with
  | .operand => True
  | .complete t _ | .whole t => New base s t

/-! ### Tokens -/

theorem keeps_lexing (h : Sound base r) {m : Lexing α} {P : α → Prop} (hm : Lexer.Gives m P) :
    Keeps base r (lexing m) fun a _ => P a := by
  have hlex := hm r.reader.lexer
  show Ends (lexing m r) _ _
  rw [lexing]
  rcases heq : m r.reader.lexer with ⟨a, lexer⟩ | ⟨e, lexer⟩
  · rw [heq] at hlex
    exact ⟨⟨⟨⟨h.reader.ahead, h.reader.placeholders⟩, h.adds, h.names, h.begun⟩, Nat.le_refl _⟩,
      hlex⟩
  · exact h.adds

theorem keeps_nextToken (h : Sound base r) :
    Keeps base r nextToken fun token _ => token.Canonical := by
  refine keeps_get ?_
  split
  · rename_i token htoken
    refine keeps_modify ⟨⟨⟨nofun, h.reader.placeholders⟩, h.adds, h.names, h.begun⟩,
      Nat.le_refl _⟩ fun h' => ?_
    exact keeps_pure h' (h.reader.ahead token htoken)
  · exact keeps_lexing h Lexer.gives_token

theorem keeps_peekToken (h : Sound base r) : Keeps base r peekToken fun _ _ => True := by
  refine keeps_get ?_
  split
  · exact keeps_pure h trivial
  · refine (keeps_lexing h Lexer.gives_token).bind fun token r' hr htoken => ?_
    have hahead : ∀ token', some token = some token' → token'.Canonical :=
      fun token' heq => Option.some.inj heq ▸ htoken
    exact keeps_modify ⟨⟨⟨hahead, hr.sound.reader.placeholders⟩, hr.sound.adds, hr.sound.names,
      hr.sound.begun⟩, Nat.le_refl _⟩ fun h' => keeps_pure h' trivial

theorem keeps_unexpected (h : Sound base r) (token : Token) (P : α → Store → Prop) :
    Keeps base r (unexpected token) P :=
  h.adds

theorem keeps_expect (h : Sound base r) (token : Token) :
    Keeps base r (expect token) fun _ _ => True := by
  refine (keeps_nextToken h).bind fun found r' hr _ => ?_
  split
  · exact keeps_pure hr.sound trivial
  · exact keeps_unexpected hr.sound _ _

/-! ### Terms -/

/-- An operation that makes a term of new cells. -/
theorem keeps_building (h : Sound base r) {f : Store → Ref × Store}
    (hf : Adds base r.store → Allocates base r.store (f r.store)) :
    Keeps base r (building f) fun t s => New base s t := by
  have hmade := hf h.adds
  exact ⟨⟨⟨h.reader, hmade.adds, fun p hp => (h.names p hp).mono hmade.size_le,
    fun construct hc t ht => (h.begun construct hc t ht).mono hmade.size_le⟩, hmade.size_le⟩,
    hmade.new⟩

theorem mem_of_lookup {name : String} {names : List (String × Ref)} {t : Ref}
    (h : names.lookup name = some t) : (name, t) ∈ names := by
  obtain ⟨l, l', heq, -⟩ := List.lookup_eq_some_iff.mp h
  exact heq ▸ List.mem_append_right _ List.mem_cons_self

theorem keeps_variableNamed (h : Sound base r) (name : String) :
    Keeps base r (variableNamed name) fun t s => New base s t := by
  unfold variableNamed
  split
  · exact keeps_building h fun hadds => hadds.var none
  · refine keeps_get ?_
    split
    · exact keeps_pure h (h.names _ (mem_of_lookup ‹_›))
    · refine (keeps_building h fun hadds => hadds.var (some name)).bind fun t r' hr ht => ?_
      have hnames : ∀ p ∈ (name, t) :: r'.names, New base r'.store p.2 :=
        List.forall_mem_cons.mpr ⟨ht, hr.sound.names⟩
      exact keeps_modify ⟨⟨hr.sound.reader, hr.sound.adds, hnames, hr.sound.begun⟩, Nat.le_refl _⟩
        fun h' => keeps_pure h' ht

/-- The list of constants. -/
theorem keeps_literals (h : Sound base r) {ls : List Literal} (hls : ∀ l ∈ ls, l.Canonical) :
    Keeps base r (building fun s => let (ts, s) := s.literals ls; s.list ts)
      fun t s => New base s t := by
  refine keeps_building h fun hadds => ?_
  obtain ⟨hitems, hle, hnew⟩ := hadds.literals hls
  exact (hitems.list hnew).mono hle

theorem keeps_codeList (h : Sound base r) (text : String) :
    Keeps base r (codeList text) fun t s => New base s t := by
  refine keeps_literals h ?_
  simp only [List.forall_mem_map]
  exact fun c _ => Literal.ofInt_canonical _

theorem keeps_charList (h : Sound base r) (text : String) :
    Keeps base r (charList text) fun t s => New base s t := by
  refine keeps_literals h ?_
  simp only [List.forall_mem_map]
  exact fun c _ => trivial

theorem keeps_atom (h : Sound base r) (name : String) :
    Keeps base r (building (·.atom name)) fun t s => New base s t :=
  keeps_building h fun hadds => hadds.atom name

theorem keeps_doubleQuoted (h : Sound base r) (text : String) :
    Keeps base r (doubleQuoted text) fun t s => New base s t := by
  refine keeps_get ?_
  split
  · exact keeps_charList h text
  · exact keeps_codeList h text
  · exact keeps_atom h text

/-! ### Constructs -/

/-- A step that leads to a phase whose term is new. -/
abbrev Steps (base : Store) (r : Reading) (m : ReadM ReadPhase) : Prop :=
  Keeps base r m (PhaseNew base)

theorem steps_complete {m : ReadM Ref} (priority : Nat)
    (hm : Keeps base r m fun t s => New base s t) :
    Steps base r (do return .complete (← m) priority) :=
  hm.bind fun _ _ hr ht => keeps_pure hr.sound ht

theorem steps_enter (h : Sound base r) (construct : Construct)
    (hc : ∀ t ∈ construct.operands, New base r.store t) (limit : Nat) :
    Steps base r (enter construct limit) := by
  have hbegun := List.forall_mem_cons.mpr ⟨hc, h.begun⟩
  exact keeps_modify ⟨⟨h.reader, h.adds, h.names, List.forall_mem_cons.mpr ⟨nofun, hbegun⟩⟩,
    Nat.le_refl _⟩ fun h' => keeps_pure h' trivial

theorem steps_enter_nil (h : Sound base r) {construct : Construct} (hc : construct.operands = [])
    (limit : Nat) : Steps base r (enter construct limit) := by
  refine steps_enter h construct ?_ limit
  rw [hc]
  exact nofun

theorem keeps_limit (h : Sound base r) : Keeps base r limit fun _ _ => True := by
  refine keeps_get ?_
  split
  · exact keeps_pure h trivial
  · exact keeps_pure h trivial

variable (ops : OperatorTable)

theorem keeps_continuation? (h : Sound base r) (limit priority : Nat) :
    Keeps base r (continuation? ops limit priority) fun _ _ => True :=
  (keeps_peekToken h).bind fun _ _ hr _ => keeps_pure hr.sound trivial

theorem keeps_startsOperand (h : Sound base r) :
    Keeps base r (startsOperand ops) fun _ _ => True := by
  refine (keeps_peekToken h).bind fun token r' hr _ => ?_
  split <;> exact keeps_pure hr.sound trivial

theorem steps_placeholder (h : Sound base r) : Steps base r placeholder := by
  refine keeps_get ?_
  split
  · exact steps_complete 0 (keeps_atom h "?")
  · exact h.adds
  · rename_i arg rest hargs
    have hmade := h.reader.placeholders _ hargs
    rw [List.forall_mem_cons] at hmade
    have hrest : ∀ args, some rest = some args → ∀ a ∈ args, a.WellMade :=
      fun args heq => Option.some.inj heq ▸ hmade.2
    exact keeps_modify ⟨⟨⟨h.reader.ahead, hrest⟩, h.adds, h.names, h.begun⟩, Nat.le_refl _⟩
      fun h' => steps_complete 0 (keeps_building h' fun hadds => hadds.build hmade.1)

theorem steps_plainName (h : Sound base r) (name : String) : Steps base r (plainName name) := by
  unfold plainName
  split
  · exact steps_placeholder h
  · exact steps_complete 0 (keeps_atom h name)

theorem steps_operatorOrName (h : Sound base r) (name : String) :
    Steps base r (operatorOrName ops name) := by
  unfold operatorOrName
  split
  · refine (keeps_limit h).bind fun limit r' hr _ => ?_
    split
    · refine (keeps_startsOperand ops hr.sound).bind fun starts r'' hr' _ => ?_
      split
      · exact steps_enter_nil hr'.sound rfl _
      · exact steps_plainName hr'.sound name
    · exact steps_plainName hr.sound name
  · exact steps_plainName h name

theorem steps_nameOperand (h : Sound base r) (name : String) :
    Steps base r (nameOperand ops name) := by
  refine (keeps_peekToken h).bind fun token r' hr _ => ?_
  split
  · exact (keeps_nextToken hr.sound).bind fun _ _ hr' _ => steps_enter_nil hr'.sound rfl _
  · split
    · refine (keeps_nextToken hr.sound).bind fun _ r'' hr' _ => ?_
      refine steps_complete 0 (keeps_building hr'.sound fun hadds => ?_)
      exact hadds.literal (Literal.neg_canonical _)
    · exact steps_operatorOrName ops hr.sound name
  · exact steps_operatorOrName ops hr.sound name

theorem steps_beginOperand (h : Sound base r) : Steps base r (beginOperand ops) := by
  refine (keeps_nextToken h).bind fun token r' hr htoken => ?_
  split
  · exact steps_nameOperand ops hr.sound _
  · exact steps_complete 0 (keeps_building hr.sound fun hadds => hadds.literal htoken)
  · exact steps_complete 0 (keeps_variableNamed hr.sound _)
  · exact steps_complete 0 (keeps_doubleQuoted hr.sound _)
  · exact steps_complete 0 (keeps_codeList hr.sound _)
  · exact steps_enter_nil hr.sound rfl _
  · exact steps_enter_nil hr.sound rfl _
  · refine (keeps_peekToken hr.sound).bind fun token r'' hr' _ => ?_
    split
    · exact (keeps_nextToken hr'.sound).bind fun _ _ hr'' _ =>
        steps_nameOperand ops hr''.sound "[]"
    · exact steps_enter_nil hr'.sound rfl _
  · refine (keeps_peekToken hr.sound).bind fun token r'' hr' _ => ?_
    split
    · exact (keeps_nextToken hr'.sound).bind fun _ _ hr'' _ =>
        steps_nameOperand ops hr''.sound _
    · exact steps_enter_nil hr'.sound rfl _
  · exact keeps_unexpected hr.sound _ _

theorem steps_giveExpression (h : Sound base r) (limit : Nat) {t : Ref}
    (ht : New base r.store t) (priority : Nat) :
    Steps base r (giveExpression ops limit t priority) := by
  refine (keeps_continuation? ops h limit priority).bind fun found r' hr _ => ?_
  have ht' := ht.mono hr.size_le
  have hbegin : ∀ {r : Reading}, Sound base r →
      Continues base r { r with begun := .expression limit :: r.begun } := fun h =>
    ⟨⟨h.reader, h.adds, h.names, List.forall_mem_cons.mpr ⟨nofun, h.begun⟩⟩, Nat.le_refl _⟩
  split
  · exact keeps_pure hr.sound ht'
  · refine (keeps_nextToken hr.sound).bind fun _ r'' hr' _ => ?_
    refine keeps_modify (hbegin hr'.sound) fun h' => steps_enter h' _ ?_ _
    exact List.forall_mem_singleton.mpr (ht'.mono hr'.size_le)
  · refine (keeps_nextToken hr.sound).bind fun _ r'' hr' _ => ?_
    refine (keeps_building hr'.sound fun hadds => hadds.apply _ ?_).bind fun t' r₃ hr'' ht'' => ?_
    · exact List.forall_mem_singleton.mpr (ht'.mono hr'.size_le)
    · exact keeps_modify (hbegin hr''.sound) fun h' => keeps_pure h' ht''

theorem steps_giveOperand (h : Sound base r) {construct : Construct} {t : Ref}
    (hc : ∀ u ∈ construct.operands, New base r.store u) (ht : New base r.store t)
    (priority : Nat) : Steps base r (giveOperand ops construct t priority) := by
  have happly : ∀ {r : Reading} (name : String) {args : List Ref} (priority : Nat), Sound base r →
      (∀ u ∈ args, New base r.store u) →
      Steps base r (do return .complete (← building (·.apply name args)) priority) :=
    fun name _ priority h hargs =>
      steps_complete priority (keeps_building h fun hadds => hadds.apply name hargs)
  have hitems : ∀ {r' : Reading} {items : List Ref}, r.store.size ≤ r'.store.size →
      (∀ u ∈ items, New base r.store u) → ∀ u ∈ t :: items, New base r'.store u :=
    fun hle hitems => List.forall_mem_cons.mpr
      ⟨ht.mono hle, fun u hu => (hitems u hu).mono hle⟩
  cases construct with
  | expression limit => exact steps_giveExpression ops h limit ht priority
  | before name priority => exact happly name priority h (List.forall_mem_singleton.mpr ht)
  | between name priority left =>
    refine happly name priority h (List.forall_mem_cons.mpr ⟨?_, List.forall_mem_singleton.mpr ht⟩)
    exact hc left (List.mem_singleton_self left)
  | args name items =>
    refine (keeps_nextToken h).bind fun token r' hr _ => ?_
    have hnew := hitems hr.size_le hc
    split
    · exact steps_enter hr.sound (.args name (t :: items)) hnew _
    · exact happly name 0 hr.sound fun u hu => hnew u (List.mem_reverse.mp hu)
    · exact keeps_unexpected hr.sound _ _
  | group =>
    refine (keeps_expect h _).bind fun _ r' hr _ => keeps_pure hr.sound ?_
    exact ht.mono hr.size_le
  | list items =>
    refine (keeps_nextToken h).bind fun token r' hr _ => ?_
    have hnew := hitems hr.size_le hc
    split
    · exact steps_enter hr.sound (.list (t :: items)) hnew _
    · exact steps_enter hr.sound (.listTail (t :: items)) hnew _
    · refine steps_complete 0 (keeps_building hr.sound fun hadds => hadds.list ?_)
      exact fun u hu => hnew u (List.mem_reverse.mp hu)
    · exact keeps_unexpected hr.sound _ _
  | listTail items =>
    refine (keeps_expect h _).bind fun _ r' hr _ => ?_
    refine steps_complete 0 (keeps_building hr.sound fun hadds => ?_)
    refine hadds.partialList (fun u hu => ?_) (ht.mono hr.size_le)
    exact (hc u (List.mem_reverse.mp hu)).mono hr.size_le
  | curly =>
    refine (keeps_expect h _).bind fun _ r' hr _ => ?_
    exact happly _ 0 hr.sound (List.forall_mem_singleton.mpr (ht.mono hr.size_le))

/-- **Every step of reading keeps the invariant.** -/
theorem steps_step (h : Sound base r) {phase : ReadPhase} (hphase : PhaseNew base phase r.store) :
    Steps base r (step ops phase) := by
  cases phase with
  | operand => exact steps_beginOperand ops h
  | complete t priority =>
    refine keeps_get ?_
    split
    · exact keeps_pure h hphase
    · rename_i construct rest hbegun
      have hnew := h.begun
      rw [hbegun, List.forall_mem_cons] at hnew
      exact keeps_modify ⟨⟨h.reader, h.adds, h.names, hnew.2⟩, Nat.le_refl _⟩ fun h' =>
        steps_giveOperand ops h' hnew.1 hphase priority
  | whole t => exact keeps_pure h hphase

theorem keeps_steps (h : Sound base r) (n : Nat) (phase : ReadPhase)
    (hphase : PhaseNew base phase r.store) :
    Keeps base r (steps ops n phase) fun t s => New base s t := by
  induction n generalizing r phase with
  | zero =>
    cases phase with
    | operand | complete t priority => exact h.adds
    | whole t => exact keeps_pure h hphase
  | succ n ih =>
    cases phase with
    | whole t => exact keeps_pure h hphase
    | operand | complete t priority =>
      exact (steps_step ops h hphase).bind fun _ _ hr hphase' => ih hr.sound _ hphase'

/-- **A term that is read is new.** -/
theorem keeps_term (h : Sound base r) : Keeps base r (term ops) fun t s => New base s t := by
  refine keeps_get ?_
  refine (keeps_steps ops h _ .operand trivial).bind fun t r' hr ht => ?_
  exact (keeps_expect hr.sound .stop).bind fun _ _ hr' _ =>
    keeps_pure hr'.sound (ht.mono hr'.size_le)

end Reading

/-! ## Sources -/

/-- What it means that the next term of a source was read into a store, or not. -/
structure ReadsNew (s : Store) (t : Option Ref) (reader : TermReader) (s' : Store) : Prop where
  /-- The reader can go on. -/
  reader : reader.Sound
  /-- There are only new cells. -/
  adds : Adds s s'
  /-- The term is new. -/
  new : ∀ u, t = some u → New s s' u

theorem TermReader.sound_ofInput (input : Input) (doubleQuotes : DoubleQuotes)
    {placeholders : Option (List Term)}
    (h : ∀ args, placeholders = some args → ∀ a ∈ args, a.WellMade) :
    (TermReader.ofInput input doubleQuotes placeholders).Sound where
  ahead := nofun
  placeholders := h

theorem TermReader.sound_atEnd {reader : TermReader} (h : reader.Sound) : reader.atEnd.2.Sound := by
  unfold TermReader.atEnd
  split
  · exact h
  · split <;> exact ⟨h.ahead, h.placeholders⟩

/-- **A term that is read consists of new cells**, and so does whatever was read before an error. -/
theorem TermReader.next?_reads {reader reader' : TermReader} (h : reader.Sound) {s s' : Store}
    (hs : s.WellFormed) (ops : OperatorTable) {result : Except ReadError (Option Ref)}
    (heq : reader.next? ops s = (result, reader', s')) :
    Adds s s' ∧ ∀ t, result = .ok t → ReadsNew s t reader' s' := by
  have hend := TermReader.sound_atEnd h
  unfold TermReader.next? at heq
  split at heq
  · cases heq
    exact ⟨.refl hs, nofun⟩
  · rename_i hatEnd
    cases heq
    rw [hatEnd] at hend
    refine ⟨.refl hs, fun t ht => ?_⟩
    cases ht
    exact ⟨hend, .refl hs, nofun⟩
  · rename_i reader₁ hatEnd
    rw [hatEnd] at hend
    have hsound : Reading.Sound s { reader := reader₁, store := s, begun := [.expression 1200] } :=
      ⟨hend, .refl hs, nofun, List.forall_mem_singleton.mpr nofun⟩
    have hterm := Reading.keeps_term ops hsound
    unfold TermReader.read at heq
    dsimp only at heq
    split at heq
    · rename_i t r hok
      rw [Reading.Keeps, hok] at hterm
      cases heq
      refine ⟨hterm.1.sound.adds, fun u hu => ?_⟩
      cases hu
      refine ⟨hterm.1.sound.reader, hterm.1.sound.adds, fun u hu => ?_⟩
      exact Option.some.inj hu ▸ hterm.2
    · rename_i e r herror
      rw [Reading.Keeps, herror] at hterm
      cases heq
      exact ⟨hterm, nofun⟩

theorem TermSource.next?_reads {source source' : TermSource} (h : source.reader.Sound)
    {s s' : Store} (hs : s.WellFormed) (ops : OperatorTable)
    {result : Except ReadError (Option Ref)}
    (heq : source.next? ops s = (result, source', s')) :
    Adds s s' ∧ ∀ t, result = .ok t → ReadsNew s t source'.reader s' := by
  have hstarted : ∀ source₁, source.started = .ok source₁ → source₁.reader.Sound := by
    intro source₁ h₁
    unfold TermSource.started at h₁
    split at h₁
    · split at h₁
      · cases h₁
        exact ⟨h.ahead, h.placeholders⟩
      · cases h₁
    · cases h₁
      exact h
  unfold TermSource.next? at heq
  split at heq
  · cases heq
    exact ⟨.refl hs, nofun⟩
  · rename_i source₁ h₁
    cases heq
    exact TermReader.next?_reads (hstarted source₁ h₁) hs ops rfl

end Clausal

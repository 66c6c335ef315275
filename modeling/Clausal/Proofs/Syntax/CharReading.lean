import Clausal.Proofs.Syntax.Encodings

/-! # Reading characters

A `CharReader` is given what its reads will give, decoded from the first byte to the last.  A reader
of bytes need not do that: `LazyReader` decodes a character when it is asked for one, and has one
stack for the characters that it looked at and for those that were put back.  That the two cannot be
told apart, and that both give what a plain list of items gives (`Input.source`), are two
simulations, one step each (`CharSource.Simulates`).

What reads alone give is then a matter of the bytes: the characters of the longest beginning that is
well encoded, and after them the end, or the fault that the next bytes are.
-/

namespace Clausal

open Text

/-! ## Uses of a reader -/

/-- What can be done with a reader. -/
inductive Use where
  /-- Looks at the next character. -/
  | peek
  /-- Looks at the next character and consumes it. -/
  | take
  /-- Reads the next character. -/
  | read
  /-- Puts a character back. -/
  | putBack (c : Char)
  deriving DecidableEq, Repr

/-- How states of some kind are read from. -/
structure CharSource (σ : Type) where
  /-- Looks at the next character. -/
  peek : σ → Option Item × σ
  /-- Looks at the next character and consumes it. -/
  take : σ → Option Item × σ
  /-- Reads the next character. -/
  read : σ → Option Item × σ
  /-- Puts a character back. -/
  putBack : Char → σ → σ

namespace CharSource

variable {σ τ : Type}

/-- What a use answers, if it answers anything, and the state after it. -/
def perform (R : CharSource σ) : Use → σ → Option (Option Item) × σ
  | .peek, s => (some (R.peek s).1, (R.peek s).2)
  | .take, s => (some (R.take s).1, (R.take s).2)
  | .read, s => (some (R.read s).1, (R.read s).2)
  | .putBack c, s => (none, R.putBack c s)

/-- The state after some uses. -/
def after (R : CharSource σ) (s : σ) (uses : List Use) : σ :=
  uses.foldl (fun s use => (R.perform use s).2) s

/-- The answers to some uses, one after the other. -/
def answers (R : CharSource σ) : σ → List Use → List (Option Item)
  | _, [] => []
  | s, use :: uses => (R.perform use s).1.toList ++ R.answers (R.perform use s).2 uses

/-- Related states give the same answer to every use, and are related after it. -/
def Simulates (R : CharSource σ) (T : CharSource τ) (rel : σ → τ → Prop) : Prop :=
  ∀ use s t, rel s t → (R.perform use s).1 = (T.perform use t).1 ∧
    rel (R.perform use s).2 (T.perform use t).2

theorem Simulates.answers_eq {R : CharSource σ} {T : CharSource τ} {rel : σ → τ → Prop}
    (h : R.Simulates T rel) {s : σ} {t : τ} (hst : rel s t) (uses : List Use) :
    R.answers s uses = T.answers t uses := by
  induction uses generalizing s t with
  | nil => rfl
  | cons use uses ih =>
    obtain ⟨hanswer, hrel⟩ := h use s t hst
    rw [answers, answers, hanswer, ih hrel]

theorem Simulates.after {R : CharSource σ} {T : CharSource τ} {rel : σ → τ → Prop}
    (h : R.Simulates T rel) {s : σ} {t : τ} (hst : rel s t) (uses : List Use) :
    rel (R.after s uses) (T.after t uses) := by
  induction uses generalizing s t with
  | nil => exact hst
  | cons use uses ih => exact ih (h use s t hst).2

/-- Where looking ahead does not change the state that explains the answers, it changes no answer,
however often it is done. -/
theorem answers_replicate_peek {R : CharSource σ} {s : σ} {T : CharSource τ} {t : τ}
    (h : (T.peek t).2 = t) (heq : ∀ uses, R.answers s uses = T.answers t uses) (n : Nat)
    (more : List Use) :
    R.answers s (List.replicate n .peek ++ more) =
      List.replicate n (T.peek t).1 ++ R.answers s more := by
  rw [heq, heq]
  induction n with
  | zero => rfl
  | succ n ih =>
    have hstep : (T.perform .peek t).2 = t := h
    rw [List.replicate_succ, List.cons_append, answers, hstep, ih, List.replicate_succ]
    rfl

end CharSource

/-! ## A list of items -/

namespace Input

/-- The item at the front.  Only a fault is passed. -/
def peek : Input → Option Item × Input
  | [] => (none, [])
  | .char c :: rest => (some (.char c), .char c :: rest)
  | .fault fault :: rest => (some (.fault fault), rest)

/-- The item at the front, which is passed. -/
def next : Input → Option Item × Input
  | [] => (none, [])
  | item :: rest => (some item, rest)

/-- A list of items as something to read from: characters put back stand in front of what there was,
the last one first. -/
def source : CharSource Input where
  peek := peek
  take := next
  read := next
  putBack c input := .char c :: input

/-- Reading takes the items in their order. -/
theorem answers_reads (items more : Input) (n : Nat) :
    source.answers (items ++ more) (List.replicate (items.length + n) .read) =
      items.map some ++ source.answers more (List.replicate n .read) := by
  induction items with
  | nil => rw [List.length_nil, Nat.zero_add]; rfl
  | cons item items ih =>
    rw [List.length_cons, Nat.add_right_comm, List.replicate_succ, CharSource.answers]
    exact congrArg (some item :: ·) ih

end Input

/-! ## The reader is a list of items -/

namespace CharReader

variable {r : CharReader} {items : Input}

/-- How a reader is used. -/
def source : CharSource CharReader where
  peek := peek
  take r := (r.peek.1, r.peek.2.consume)
  read := read
  putBack := putBack

/-- A reader that holds some characters, in front of what it has to give besides. -/
def holding (front : List Char) (rest : Input) : CharReader :=
  { input := front.map .char ++ rest, held := front.length }

theorem peek_holding_cons (c : Char) (front : List Char) (rest : Input) :
    (holding (c :: front) rest).peek = (some (.char c), holding (c :: front) rest) := by
  show (some (Item.char c), CharReader.mk _ (max (front.length + 1) 1)) = _
  rw [Nat.max_eq_left (Nat.le_add_left 1 front.length)]
  rfl

theorem consume_holding_cons (c : Char) (front : List Char) (rest : Input) :
    (holding (c :: front) rest).consume = holding front rest := rfl

/-- A reader whose reads give these items, and that holds nothing but characters. -/
def Gives (r : CharReader) (input : Input) : Prop :=
  ∃ front rest, r = holding front rest ∧ input = front.map .char ++ rest

/-- A reader that holds nothing yet. -/
theorem gives_start (input : Input) : Gives { input } input := ⟨[], input, rfl, rfl⟩

theorem Gives.peek (h : Gives r items) :
    r.peek.1 = items.peek.1 ∧ Gives r.peek.2 items.peek.2 := by
  obtain ⟨front, rest, rfl, rfl⟩ := h
  match front, rest with
  | c :: front, rest =>
    rw [peek_holding_cons]
    exact ⟨rfl, c :: front, rest, rfl, rfl⟩
  | [], [] => exact ⟨rfl, [], [], rfl, rfl⟩
  | [], .char c :: rest => exact ⟨rfl, [c], rest, rfl, rfl⟩
  | [], .fault _ :: rest => exact ⟨rfl, [], rest, rfl, rfl⟩

/-- What was looked at, if it is a character, is what is consumed.  A fault was passed already, and
then nothing is held. -/
theorem Gives.take (h : Gives r items) :
    r.peek.1 = items.next.1 ∧ Gives r.peek.2.consume items.next.2 := by
  obtain ⟨front, rest, rfl, rfl⟩ := h
  match front, rest with
  | c :: front, rest =>
    rw [peek_holding_cons, consume_holding_cons]
    exact ⟨rfl, front, rest, rfl, rfl⟩
  | [], [] => exact ⟨rfl, [], [], rfl, rfl⟩
  | [], .char _ :: rest => exact ⟨rfl, [], rest, rfl, rfl⟩
  | [], .fault _ :: rest => exact ⟨rfl, [], rest, rfl, rfl⟩

theorem Gives.read (h : Gives r items) :
    r.read.1 = items.next.1 ∧ Gives r.read.2 items.next.2 := by
  obtain ⟨front, rest, rfl, rfl⟩ := h
  match front, rest with
  | c :: front, rest =>
    rw [CharReader.read, peek_holding_cons]
    exact ⟨rfl, front, rest, rfl, rfl⟩
  | [], [] => exact ⟨rfl, [], [], rfl, rfl⟩
  | [], .char _ :: rest => exact ⟨rfl, [], rest, rfl, rfl⟩
  | [], .fault _ :: rest => exact ⟨rfl, [], rest, rfl, rfl⟩

theorem Gives.putBack (h : Gives r items) (c : Char) :
    Gives (r.putBack c) (Item.char c :: items) := by
  obtain ⟨front, rest, rfl, rfl⟩ := h
  exact ⟨c :: front, rest, rfl, rfl⟩

/-- However it is used, a reader is the list of items that it was given. -/
theorem simulates_input : source.Simulates Input.source Gives := by
  intro use r items h
  cases use with
  | peek => exact ⟨congrArg some h.peek.1, h.peek.2⟩
  | take => exact ⟨congrArg some h.take.1, h.take.2⟩
  | read => exact ⟨congrArg some h.read.1, h.read.2⟩
  | putBack c => exact ⟨rfl, h.putBack c⟩

end CharReader

/-! ## Decoding on demand -/

namespace Input

variable {c : Char} {bytes rest : List UInt8}

/-- The item that bytes begin with, and the bytes after it. -/
def decode? : List UInt8 → Option (Item × List UInt8)
  | [] => none
  | lead :: rest =>
    match Utf8.width? lead with
    | none => some (.fault (.badBytes [lead]), rest)
    | some width =>
      if rest.length < width - 1 then some (.fault .cutOff, [])
      else
        match Utf8.char? (lead :: rest.take (width - 1)) with
        | some c => some (.char c, rest.drop (width - 1))
        | none => some (.fault (.badBytes (lead :: rest.take (width - 1))), rest.drop (width - 1))

theorem ofBytes_nil : ofBytes none [] = [] := by
  rw [ofBytes]
  rfl

theorem ofBytes_of_decode? {item : Item} (h : decode? bytes = some (item, rest)) :
    ofBytes none bytes = item :: ofBytes none rest := by
  match bytes with
  | [] => cases h
  | lead :: bytes =>
    rw [ofBytes]
    rw [decode?] at h
    cases hwidth : Utf8.width? lead with
    | none =>
      rw [hwidth] at h
      cases h
      rfl
    | some width =>
      simp only [hwidth] at h
      have hmore : (bytes.take (width - 1)).length < width - 1 ↔ bytes.length < width - 1 := by
        rw [List.length_take]
        omega
      simp only [hmore]
      split
      case isTrue hshort =>
        rw [if_pos hshort] at h
        cases h
        rw [ofBytes_nil]
        rfl
      case isFalse hshort =>
        rw [if_neg hshort] at h
        cases hchar : Utf8.char? (lead :: bytes.take (width - 1)) <;>
          · simp only [hchar] at h
            cases h
            rfl

theorem decode?_eq_none : decode? bytes = none ↔ bytes = [] := by
  match bytes with
  | [] => exact ⟨fun _ => rfl, fun _ => rfl⟩
  | lead :: bytes =>
    refine ⟨fun h => ?_, fun h => nomatch h⟩
    rw [decode?] at h
    split at h
    · cases h
    · split at h
      · cases h
      · split at h <;> cases h

/-- A read of bytes answers what they begin with. -/
theorem next_ofBytes (bytes : List UInt8) :
    (ofBytes none bytes).next.1 = (decode? bytes).map Prod.fst := by
  match hd : decode? bytes with
  | none =>
    rw [decode?_eq_none.1 hd, ofBytes_nil]
    rfl
  | some (item, rest) =>
    rw [ofBytes_of_decode? hd]
    rfl

/-- A character is decoded from its encoding and from nothing else. -/
theorem decode?_eq_char :
    decode? bytes = some (.char c, rest) ↔ bytes = String.utf8EncodeChar c ++ rest := by
  constructor
  · intro h
    match bytes with
    | lead :: bytes =>
      rw [decode?] at h
      split at h
      case h_1 => cases h
      case h_2 width hwidth =>
        split at h
        case isTrue => cases h
        case isFalse hlong =>
          split at h
          case h_2 => cases h
          case h_1 c' hchar =>
            obtain ⟨rfl, rfl⟩ : c' = c ∧ bytes.drop (width - 1) = rest := by simpa using h
            have hle := Utf8.width?_le hwidth
            have htake : (bytes.take (width - 1)).length + 1 = width := by
              rw [List.length_take]
              omega
            rw [← (Utf8.char?_eq_some_iff (by rw [htake, hwidth])).1 hchar, List.cons_append,
              List.take_append_drop]
  · rintro rfl
    obtain ⟨lead, more, hcode, hwidth⟩ := Utf8.encode_eq_cons c
    have hchar := (Utf8.char?_eq_some_iff (c := c) hwidth).2 hcode.symm
    rw [hcode, List.cons_append, decode?, hwidth]
    simp [hchar]

/-- The first byte announces more bytes than there are. -/
def Short (bytes : List UInt8) : Prop :=
  ∃ lead more width, bytes = lead :: more ∧ Utf8.width? lead = some width ∧ bytes.length < width

theorem decode?_of_short (h : Short bytes) : decode? bytes = some (.fault .cutOff, []) := by
  obtain ⟨lead, more, width, rfl, hwidth, hlt⟩ := h
  rw [List.length_cons] at hlt
  rw [decode?, hwidth]
  exact if_pos (by omega)

/-- Bytes that begin with no character and do not end too early are no characters at all. -/
theorem decode?_of_bad (hne : bytes ≠ [])
    (hchar : ∀ c rest, bytes ≠ String.utf8EncodeChar c ++ rest) (hshort : ¬ Short bytes) :
    ∃ bad rest, decode? bytes = some (.fault (.badBytes bad), rest) := by
  match bytes, hne with
  | lead :: more, _ =>
    have hnochar : ∀ c rest, decode? (lead :: more) ≠ some (.char c, rest) :=
      fun c rest h => hchar c rest (decode?_eq_char.1 h)
    rw [decode?] at hnochar ⊢
    split
    case h_1 => exact ⟨_, _, rfl⟩
    case h_2 width hwidth =>
      have hlong : ¬ more.length < width - 1 := by
        intro hlt
        refine hshort ⟨lead, more, width, rfl, hwidth, ?_⟩
        rw [List.length_cons]
        omega
      simp only [hwidth, if_neg hlong] at hnochar ⊢
      split
      case h_1 c hc =>
        simp only [hc] at hnochar
        exact absurd rfl (hnochar c _)
      case h_2 => exact ⟨_, _, rfl⟩

/-! ### The longest beginning that is well encoded -/

theorem ofBytes_encode_append (c : Char) (rest : List UInt8) :
    ofBytes none (String.utf8EncodeChar c ++ rest) = .char c :: ofBytes none rest :=
  ofBytes_of_decode? (decode?_eq_char.2 rfl)

/-- Well-encoded bytes are decoded to the characters that they encode. -/
theorem ofBytes_flatMap_append (cs : List Char) (rest : List UInt8) :
    ofBytes none (cs.flatMap String.utf8EncodeChar ++ rest) =
      cs.map .char ++ ofBytes none rest := by
  induction cs with
  | nil => rfl
  | cons c cs ih =>
    rw [List.flatMap_cons, List.append_assoc, ofBytes_encode_append, ih]
    rfl

/-- The characters `cs` are encoded by the longest beginning of the bytes that encodes characters;
the bytes after it are `rest`. -/
structure Longest (bytes : List UInt8) (cs : List Char) (rest : List UInt8) : Prop where
  /-- They are encoded by a beginning of the bytes. -/
  encoded : bytes = cs.flatMap String.utf8EncodeChar ++ rest
  /-- Characters that a beginning of the bytes encodes are the first ones of these. -/
  longest : ∀ ds, ds.flatMap String.utf8EncodeChar <+: bytes → ds <+: cs

/-- If no character comes after it, then a beginning that encodes characters is the longest. -/
theorem longest_of_stuck {cs : List Char}
    (hstuck : ∀ c more, rest ≠ String.utf8EncodeChar c ++ more) :
    Longest (cs.flatMap String.utf8EncodeChar ++ rest) cs rest := by
  refine ⟨rfl, fun ds => ?_⟩
  induction cs generalizing ds with
  | nil =>
    rintro ⟨more, hmore⟩
    match ds with
    | [] => exact List.prefix_rfl
    | d :: ds =>
      rw [List.flatMap_cons, List.append_assoc] at hmore
      exact absurd hmore.symm (hstuck d _)
  | cons c cs ih =>
    rintro ⟨more, hmore⟩
    match ds with
    | [] => exact List.nil_prefix
    | d :: ds =>
      rw [List.flatMap_cons, List.flatMap_cons, List.append_assoc, List.append_assoc] at hmore
      have hd := decode?_eq_char.2 hmore.symm
      rw [decode?_eq_char.2 rfl] at hd
      obtain ⟨rfl, hrest⟩ : c = d ∧ _ = _ := by simpa using hd
      exact List.cons_prefix_cons.2 ⟨rfl, ih ds ⟨more, hrest.symm⟩⟩

theorem exists_stuck (bytes : List UInt8) : ∃ (cs : List Char) (rest : List UInt8),
    bytes = cs.flatMap String.utf8EncodeChar ++ rest ∧
      ∀ c more, rest ≠ String.utf8EncodeChar c ++ more := by
  induction hn : bytes.length using Nat.strongRecOn generalizing bytes with
  | ind n ih =>
    by_cases h : ∃ c more, bytes = String.utf8EncodeChar c ++ more
    case pos =>
      obtain ⟨c, more, rfl⟩ := h
      have hlt : more.length < n := by
        have hpos := c.utf8Size_pos
        rw [← String.length_utf8EncodeChar] at hpos
        rw [← hn, List.length_append]
        omega
      obtain ⟨cs, rest, rfl, hstuck⟩ := ih more.length hlt more rfl
      exact ⟨c :: cs, rest, by rw [List.flatMap_cons, List.append_assoc], hstuck⟩
    case neg =>
      simp only [not_exists] at h
      exact ⟨[], bytes, rfl, h⟩

/-- Bytes are well encoded if nothing comes after their longest beginning that is. -/
theorem Longest.isValidUTF8_iff {cs : List Char} (h : Longest bytes cs rest) :
    bytes.toByteArray.IsValidUTF8 ↔ rest = [] := by
  constructor
  · rintro ⟨ds, hds⟩
    have hbytes : bytes = ds.flatMap String.utf8EncodeChar := by
      have hdata := congrArg (fun b : ByteArray => b.data.toList) hds
      simpa [List.utf8Encode] using hdata
    obtain ⟨es, rfl⟩ := h.longest ds (hbytes ▸ List.prefix_rfl)
    have hlength := congrArg List.length h.encoded
    rw [hbytes, List.flatMap_append] at hlength
    simp only [List.length_append] at hlength
    exact List.length_eq_zero_iff.1 (by omega)
  · rintro rfl
    exact ⟨cs, by rw [h.encoded, List.append_nil]; rfl⟩

end Input

/-- A reader that decodes no byte before it is asked for a character. -/
structure LazyReader where
  /-- The characters that were looked at or put back, the latest first. -/
  pending : List Char := []
  /-- The bytes that are not decoded yet. -/
  bytes : List UInt8

namespace LazyReader

/-- Looks at the next character. -/
def peek (r : LazyReader) : Option Item × LazyReader :=
  match r.pending with
  | c :: _ => (some (.char c), r)
  | [] =>
    match Input.decode? r.bytes with
    | none => (none, r)
    | some (.char c, bytes) => (some (.char c), { pending := [c], bytes })
    | some (.fault fault, bytes) => (some (.fault fault), { r with bytes })

/-- Drops the latest character that was looked at or put back, if there is one. -/
def consume (r : LazyReader) : LazyReader := { r with pending := r.pending.tail }

/-- Puts a character back. -/
def putBack (c : Char) (r : LazyReader) : LazyReader := { r with pending := c :: r.pending }

/-- Reads the next character. -/
def read (r : LazyReader) : Option Item × LazyReader :=
  match r.peek with
  | (some (.char c), r) => (some (.char c), r.consume)
  | other => other

/-- How a reader of bytes is used. -/
def source : CharSource LazyReader where
  peek := peek
  take r := (r.peek.1, r.peek.2.consume)
  read := read
  putBack := putBack

/-- The reader that was given what the bytes are decoded to. -/
def decoded (r : LazyReader) : CharReader := .holding r.pending (.ofBytes none r.bytes)

theorem peek_decoded (r : LazyReader) : r.decoded.peek = (r.peek.1, r.peek.2.decoded) := by
  obtain ⟨pending, bytes⟩ := r
  match pending with
  | c :: pending => exact CharReader.peek_holding_cons c pending _
  | [] =>
    rw [decoded, peek]
    match hd : Input.decode? bytes with
    | none =>
      obtain rfl := Input.decode?_eq_none.1 hd
      simp only [decoded, Input.ofBytes_nil]
      rfl
    | some (.char c, rest) =>
      simp only [Input.ofBytes_of_decode? hd]
      rfl
    | some (.fault fault, rest) =>
      simp only [Input.ofBytes_of_decode? hd]
      rfl

theorem consume_decoded (r : LazyReader) : r.decoded.consume = r.consume.decoded := by
  obtain ⟨pending, bytes⟩ := r
  cases pending with
  | nil => rfl
  | cons c pending => rfl

theorem read_decoded (r : LazyReader) : r.decoded.read = (r.read.1, r.read.2.decoded) := by
  rw [CharReader.read, peek_decoded, read]
  match r.peek with
  | (some (.char c), r) => exact congrArg (Prod.mk _) (consume_decoded r)
  | (some (.fault fault), r) => rfl
  | (none, r) => rfl

/-- Decoding on demand does not show in the answers. -/
theorem simulates_decoded : source.Simulates CharReader.source fun r r' => r' = r.decoded := by
  intro use r _ h
  subst h
  cases use with
  | peek =>
    refine ⟨congrArg some ?_, ?_⟩
    · exact congrArg Prod.fst (peek_decoded r).symm
    · exact congrArg Prod.snd (peek_decoded r)
  | take =>
    refine ⟨congrArg some ?_, ?_⟩
    · exact congrArg Prod.fst (peek_decoded r).symm
    · exact (congrArg (CharReader.consume ·.2) (peek_decoded r)).trans (consume_decoded r.peek.2)
  | read =>
    refine ⟨congrArg some ?_, ?_⟩
    · exact congrArg Prod.fst (read_decoded r).symm
    · exact congrArg Prod.snd (read_decoded r)
  | putBack c => exact ⟨rfl, rfl⟩

end LazyReader

/-! ## Readers of bytes -/

namespace CharReader

/-- A reader of bytes. -/
def ofBytes (bytes : List UInt8) : CharReader := { input := .ofBytes none bytes }

/-- Whatever is done with it, a reader of bytes answers like the list of what they are decoded to. -/
theorem answers_ofBytes (bytes : List UInt8) (uses : List Use) :
    source.answers (ofBytes bytes) uses = Input.source.answers (.ofBytes none bytes) uses :=
  simulates_input.answers_eq (gives_start _) uses

/-- Whatever is done with it, a reader that decodes on demand answers like one that does not. -/
theorem answers_lazy (bytes : List UInt8) (uses : List Use) :
    LazyReader.source.answers { bytes } uses = source.answers (ofBytes bytes) uses :=
  LazyReader.simulates_decoded.answers_eq rfl uses

/-- Looking ahead changes nothing, however often it is done, unless it meets a fault. -/
theorem Gives.answers_peek (h : Gives r items) (hfault : ∀ fault, r.peek.1 ≠ some (.fault fault))
    (n : Nat) (more : List Use) :
    source.answers r (List.replicate n .peek ++ more) =
      List.replicate n r.peek.1 ++ source.answers r more := by
  rw [h.peek.1] at hfault ⊢
  refine CharSource.answers_replicate_peek (T := Input.source) ?_
    (simulates_input.answers_eq h) n more
  match items with
  | [] => rfl
  | .char c :: rest => rfl
  | .fault fault :: rest => exact absurd rfl (hfault fault)

/-- A fault that is met is passed, just as if it had been read. -/
theorem answers_peek_fault {fault : InputFault} (h : r.peek.1 = some (.fault fault))
    (more : List Use) :
    source.answers r (.peek :: more) = source.answers r (.read :: more) := by
  have hread : r.read = r.peek := by
    rw [read]
    match hp : r.peek with
    | (some (.char c), r') =>
      rw [hp] at h
      cases h
    | (some (.fault fault), r') => rfl
    | (none, r') => rfl
  show r.peek.1 :: source.answers r.peek.2 more = r.read.1 :: source.answers r.read.2 more
  rw [hread]

/-- What the reads of bytes answer first that is no character is decided by what comes after the
longest beginning that is well encoded: the end, too few bytes, or bytes that are no character. -/
theorem reads_ofBytes (bytes : List UInt8) :
    ∃ (cs : List Char) (rest : List UInt8) (other : Option Item),
      Input.Longest bytes cs rest ∧
      source.answers (ofBytes bytes) (List.replicate (cs.length + 1) .read) =
        cs.map (fun c => some (.char c)) ++ [other] ∧
      (∀ c, other ≠ some (.char c)) ∧
      (other = none ↔ bytes.toByteArray.IsValidUTF8) ∧
      (other = some (.fault .cutOff) ↔ Input.Short rest) ∧
      ((∃ bad, other = some (.fault (.badBytes bad))) ↔
        ¬ bytes.toByteArray.IsValidUTF8 ∧ ¬ Input.Short rest) := by
  obtain ⟨cs, rest, hbytes, hstuck⟩ := Input.exists_stuck bytes
  have hlongest : Input.Longest bytes cs rest := hbytes ▸ Input.longest_of_stuck hstuck
  refine ⟨cs, rest, (Input.decode? rest).map Prod.fst, hlongest, ?_, ?_⟩
  · have hreads := Input.answers_reads (cs.map .char) (.ofBytes none rest) 1
    rw [← Input.ofBytes_flatMap_append, ← hbytes, List.length_map, List.map_map] at hreads
    rw [answers_ofBytes, hreads, ← Input.next_ofBytes]
    rfl
  rw [hlongest.isValidUTF8_iff]
  by_cases hnil : rest = []
  case pos =>
    subst hnil
    have hshort : ¬ Input.Short [] := by
      rintro ⟨lead, more, width, hcons, -⟩
      cases hcons
    simp [Input.decode?, hshort]
  case neg =>
    by_cases hshort : Input.Short rest
    case pos => simp [Input.decode?_of_short hshort, hnil, hshort]
    case neg =>
      obtain ⟨bad, after, hbad⟩ := Input.decode?_of_bad hnil hstuck hshort
      simp [hbad, hnil, hshort]

/-- **Reading characters from bytes.**  However looking ahead, consuming what was looked at, reading
and putting back are mixed, a reader of bytes answers like the list of what the bytes are decoded
to, with the characters put back in front and the last one first; and so does a reader that decodes
on demand.  Looking ahead any number of times changes nothing, but that a fault is passed when it is
met, as by a read.  Reads alone give the characters of the longest beginning of the bytes that is
well encoded.  Then they give the end if that is all, `cutOff` if there are fewer bytes than the
next one announces, and otherwise `badBytes`. -/
theorem ofBytes_reads (bytes : List UInt8) :
    (∀ uses, source.answers (ofBytes bytes) uses =
        Input.source.answers (.ofBytes none bytes) uses ∧
      LazyReader.source.answers { bytes } uses = source.answers (ofBytes bytes) uses) ∧
    (∀ uses, let r := source.after (ofBytes bytes) uses
      (∀ n more, (∀ fault, r.peek.1 ≠ some (.fault fault)) →
        source.answers r (List.replicate n .peek ++ more) =
          List.replicate n r.peek.1 ++ source.answers r more) ∧
      (∀ fault more, r.peek.1 = some (.fault fault) →
        source.answers r (.peek :: more) = source.answers r (.read :: more))) ∧
    ∃ (cs : List Char) (rest : List UInt8) (other : Option Item),
      Input.Longest bytes cs rest ∧
      source.answers (ofBytes bytes) (List.replicate (cs.length + 1) .read) =
        cs.map (fun c => some (.char c)) ++ [other] ∧
      (∀ c, other ≠ some (.char c)) ∧
      (other = none ↔ bytes.toByteArray.IsValidUTF8) ∧
      (other = some (.fault .cutOff) ↔ Input.Short rest) ∧
      ((∃ bad, other = some (.fault (.badBytes bad))) ↔
        ¬ bytes.toByteArray.IsValidUTF8 ∧ ¬ Input.Short rest) := by
  refine ⟨fun uses => ⟨answers_ofBytes bytes uses, answers_lazy bytes uses⟩, fun uses => ?_,
    reads_ofBytes bytes⟩
  have hgives := simulates_input.after (gives_start (.ofBytes none bytes)) uses
  exact ⟨fun n more hfault => hgives.answers_peek hfault n more,
    fun fault more h => answers_peek_fault h more⟩

/-- Looking ahead twice at a byte that begins no character gives the fault and then what is behind
it. -/
theorem peek_passes_fault : ¬ ∀ (bytes : List UInt8) (uses : List Use) (n : Nat) (more : List Use),
    let r := source.after (ofBytes bytes) uses
    source.answers r (List.replicate n .peek ++ more) =
      List.replicate n r.peek.1 ++ source.answers r more := by
  intro h
  have hpeek := h [0xFF, 0x61] [] 1 [.peek]
  have hdecode : Input.ofBytes none [0xFF, 0x61] = [.fault (.badBytes [0xFF]), .char 'a'] := by
    have hbad : Input.decode? [0xFF, 0x61] = some (.fault (.badBytes [0xFF]), [0x61]) := rfl
    have hchar : Input.decode? [0x61] = some (.char 'a', []) := rfl
    rw [Input.ofBytes_of_decode? hbad, Input.ofBytes_of_decode? hchar, Input.ofBytes_nil]
  simp [ofBytes, hdecode, CharSource.after, CharSource.answers, CharSource.perform, source,
    peek] at hpeek

end CharReader
end Clausal

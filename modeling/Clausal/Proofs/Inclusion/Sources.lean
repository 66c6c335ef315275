import Clausal.Proofs.Inclusion.Reading

/-! # Sources of terms that go on

A source whose text goes on gives the same terms (`sameNext_next?`).  Once it has no more terms, the
text after the next end of a line is read as if it stood by itself (`sameNext_beyond`).  And every
term takes characters (`length_next?_lt`).
-/

namespace Clausal

variable {more rest : Input} {quotes : DoubleQuotes} {gap : Gap}
  {R : Store → Store → Prop} {s s' s₀ : Store} (ops : OperatorTable)

namespace Lexer

/-- Neither the place nor layout before matters to what follows after layout. -/
theorem skipLayout_congr (around : Surrounding) (seen seen' : Bool) (p p' : Position)
    (input : Input) :
    (skipLayout around seen' p' input).1.map (fun _ => ()) =
        (skipLayout around seen p input).1.map (fun _ => ()) ∧
      (skipLayout around seen' p' input).2.2 = (skipLayout around seen p input).2.2 := by
  fun_induction skipLayout around seen p input generalizing seen' p' with
  | case1 seen p star => exact ⟨rfl, rfl⟩
  | case2 around seen p hnot =>
    cases around with
    | none => exact ⟨rfl, rfl⟩
    | line => exact ⟨rfl, rfl⟩
    | block star => exact absurd rfl (hnot star)
  | case3 around seen p fault rest =>
    rw [skipLayout.eq_def]
    exact ⟨rfl, rfl⟩
  | case4 seen p c rest ih => exact ih _ _
  | case5 seen p c rest star ih => exact ih _ _
  | case6 seen p c rest hlayout ih =>
    rw [skipLayout_char, if_pos hlayout]
    exact ih _ _
  | case7 seen p rest hlayout ih =>
    rw [skipLayout_char, if_neg hlayout, if_pos rfl]
    exact ih _ _
  | case8 seen p rest hlayout hc ih =>
    rw [skipLayout_char, if_neg hlayout, if_neg hc, if_pos rfl]
    exact ih _ _
  | case9 seen p fault rest hlayout hc =>
    rw [skipLayout_char, if_neg hlayout, if_neg hc, if_pos rfl]
    exact ⟨rfl, rfl⟩
  | case10 seen p rest hstar hfault hlayout hc =>
    rw [skipLayout_char, if_neg hlayout, if_neg hc, if_pos rfl]
    split
    · exact absurd rfl (hstar _)
    · exact absurd rfl (hfault _ _)
    · exact ⟨rfl, rfl⟩
  | case11 seen p c rest hlayout hc hc' =>
    rw [skipLayout_char, if_neg hlayout, if_neg hc, if_neg hc']
    exact ⟨rfl, rfl⟩

end Lexer

namespace TermReader

variable [Store.Shifting gap R] {r r' q : TermReader}

/-- A term takes characters. -/
theorem length_next?_lt (h : r.Begins [] quotes r) {t : Ref} (hnext : r.next? ops s = (.ok (some t), r', s')) :
    r'.lexer.input.length < r.lexer.input.length := by
  have hlayout := Lexer.length_skipLayout_le .none false r.lexer.position r.lexer.input
  rw [next?_eq ops h.ahead.1] at hnext
  generalize Lexer.skipLayout .none false r.lexer.position r.lexer.input = x at hlayout hnext
  obtain ⟨e | seen, p, _ | ⟨c | fault, rest⟩⟩ := x
  · cases hnext
  · cases hnext
  · cases hnext
  · cases hnext
  · let r₁ : TermReader := { r with lexer := ⟨.char c :: rest, p, r.lexer.layoutSeen || seen⟩ }
    have hr₁ : r₁.Begins [] quotes r₁ := ⟨(List.append_nil _).symm, h.ahead, h.placeholders, h.doubleQuotes⟩
    have hterm := Reading.ends_term ops hr₁ s
    have hread : r₁.readNext ops s = (.ok (some t), r', s') := hnext
    simp only [readNext, read] at hread
    rcases hresult : Reading.term ops { reader := r₁, store := s, begun := [.expression 1200] } with
      ⟨t, reading⟩ | ⟨e, reading⟩
    · rw [hresult] at hread
      cases hread
      exact Nat.lt_of_lt_of_le (hterm.of_ok hresult).2 hlayout
    · rw [hresult] at hread
      cases hread
  · cases hnext

/-- Where there is no other term, nothing is added to the store. -/
theorem store_of_next?_none (h : (r.next? ops s).1 = .ok none) : (r.next? ops s).2.2 = s := by
  rw [next?] at h ⊢
  generalize r.atEnd = x at h ⊢
  obtain ⟨e | _ | _, r'⟩ := x
  · cases h
  · simp only at h
    generalize r'.read ops s = x at h
    obtain ⟨e | t, r'', s'⟩ := x <;> cases h
  · rfl

/-- What follows after layout is read in the same way, wherever it is and whether or not there was
layout. -/
theorem sameNext_afterLayout (hahead : q.ahead = none ∧ r'.ahead = none)
    (hplaceholders : q.placeholders = none ∧ r'.placeholders = none)
    (hquotes : q.doubleQuotes = quotes ∧ r'.doubleQuotes = quotes) (hs : R s s')
    {x x' : Except ReadError Bool × Position × Input}
    (hfirst : x'.1.map (fun _ => ()) = x.1.map (fun _ => ())) (hrest : x'.2.2 = x.2.2) :
    SameNext (Begins [] quotes) [] gap R (afterLayout ops q s x) (afterLayout ops r' s' x') := by
  obtain ⟨e | seen, p, rest⟩ := x <;> obtain ⟨e' | seen', p', rest'⟩ := x' <;> cases hrest <;>
    cases hfirst
  · exact .fails rfl hs
  · rcases rest with _ | ⟨c | fault, rest⟩
    · exact .ends rfl hs
    · exact sameNext_readNext ops Input.nextLine_nil
        ⟨(List.append_nil _).symm, hahead, hplaceholders, hquotes⟩ hs
    · exact .fails rfl hs

/-- What stands after the end of a line where a text has no more terms is read as if it stood by
itself. -/
theorem sameNext_beyond (hend : (r.next? ops s₀).1 = .ok none)
    (h : r.Begins (.char '\n' :: rest) quotes r') (hq : q.lexer.input = rest) (hahead : q.ahead = none)
    (hplaceholders : q.placeholders = none) (hquotes : q.doubleQuotes = quotes)
    (hs : R s s') :
    SameNext (Begins [] quotes) [] gap R (q.next? ops s) (r'.next? ops s') := by
  have hlayout := Lexer.sameLayout_skipLayout (.inr ⟨rest, rfl⟩) .none false r.lexer.position
    r'.lexer.position r.lexer.input
  rw [next?_eq ops h.ahead.1] at hend
  rw [next?_eq ops hahead, next?_eq ops h.ahead.2, h.input, hq]
  -- Past the end of the line, which is layout, the texts are the same.
  generalize Lexer.skipLayout .none false r.lexer.position r.lexer.input = x at hlayout hend
  generalize Lexer.skipLayout .none false r'.lexer.position (r.lexer.input ++ _) = x' at hlayout ⊢
  cases hlayout with
  | stays seen p p' rest' hne =>
    rcases rest' with _ | ⟨c | fault, rest'⟩
    · exact absurd rfl hne
    · simp only [afterLayout, readNext] at hend
      generalize TermReader.read ops _ s₀ = x at hend
      obtain ⟨e | t, r₁, s₁⟩ := x <;> cases hend
    · cases hend
  | ends seen p p' hnil => cases hnil
  | goesOn seen p p' hline =>
    cases hline
    obtain ⟨hfirst, hrest⟩ := Lexer.skipLayout_congr .none false true q.lexer.position p' rest
    exact sameNext_afterLayout ops ⟨hahead, h.ahead.2⟩ ⟨hplaceholders, h.placeholders.2⟩
      ⟨hquotes, h.doubleQuotes.2⟩ hs
      hfirst hrest
  | fails e p p' rest => cases hend
  | cut e p rest x' hne he => cases hend

end TermReader

namespace Input

theorem dropLine_append (hmore : more.NextLine) (input : Input) :
    (∃ fault, input.dropLine = .error fault ∧ (input ++ more).dropLine = .error fault) ∨
      (∃ rest, input.dropLine = .ok rest ∧ (input ++ more).dropLine = .ok (rest ++ more)) ∨
      ∃ rest, more = .char '\n' :: rest ∧ input.dropLine = .ok [] ∧
        (input ++ more).dropLine = .ok rest := by
  -- The line may go on beyond the first text, to the end of the line that follows.
  induction input with
  | nil =>
    rcases hmore with rfl | ⟨rest, rfl⟩
    · exact .inr (.inl ⟨[], rfl, rfl⟩)
    · exact .inr (.inr ⟨rest, rfl, rfl, rfl⟩)
  | cons item input ih =>
    cases item with
    | fault fault => exact .inl ⟨fault, rfl, rfl⟩
    | char c =>
      by_cases hc : c = '\n'
      · subst hc
        exact .inr (.inl ⟨input, rfl, rfl⟩)
      · simp only [List.cons_append, dropLine, if_neg hc]
        exact ih

theorem dropShebang_append (hmore : more.NextLine) (input : Input) :
    (∃ fault, input.dropShebang = .error fault ∧ (input ++ more).dropShebang = .error fault) ∨
      (∃ rest, input.dropShebang = .ok rest ∧ (input ++ more).dropShebang = .ok (rest ++ more)) ∨
      ∃ rest, more = .char '\n' :: rest ∧ input.dropShebang = .ok [] ∧
        (input ++ more).dropShebang = .ok rest := by
  rcases input with _ | ⟨c | fault, input⟩
  · rcases hmore with rfl | ⟨rest, rfl⟩ <;> exact .inr (.inl ⟨[], rfl, rfl⟩)
  · by_cases hc : c = '#'
    · subst hc
      rcases input with _ | ⟨d | fault, input⟩
      · rcases hmore with rfl | ⟨rest, rfl⟩ <;> exact .inr (.inl ⟨[.char '#'], rfl, rfl⟩)
      · by_cases hd : d = '!'
        · subst hd
          exact dropLine_append hmore input
        · have hother : ∀ rest, dropShebang (.char '#' :: .char d :: rest) =
              .ok (.char '#' :: .char d :: rest) := fun rest => by
            unfold dropShebang
            split <;> simp_all
          exact .inr (.inl ⟨_, hother input, hother (input ++ more)⟩)
      · exact .inl ⟨fault, rfl, rfl⟩
    · have hother : ∀ rest, dropShebang (.char c :: rest) = .ok (.char c :: rest) := fun rest => by
        unfold dropShebang
        split <;> simp_all
      exact .inr (.inl ⟨_, hother input, hother (input ++ more)⟩)
  · exact .inl ⟨fault, rfl, rfl⟩

end Input

namespace TermSource

variable {source source' q : TermSource}

/-- The second source, about to give a term, has more to read than the first. -/
structure Begins (more : Input) (quotes : DoubleQuotes) (source source' : TermSource) : Prop where
  /-- The readers. -/
  reader : source.reader.Begins more quotes source'.reader
  /-- Whether something was read. -/
  atStart : source'.atStart = source.atStart

/-- Reads the next term of a source of which something was read. -/
theorem next?_of_started (h : source.atStart = false) (s : Store) :
    source.next? ops s = ((source.reader.next? ops s).1,
      { source with reader := (source.reader.next? ops s).2.1 }, (source.reader.next? ops s).2.2) := by
  obtain ⟨name, reader, atStart⟩ := source
  obtain rfl : atStart = false := h
  rfl

theorem sameNext_of_reader (h : source.atStart = false) (h' : source'.atStart = false)
    (hnext : SameNext (TermReader.Begins more quotes) more gap R (source.reader.next? ops s)
      (source'.reader.next? ops s')) :
    SameNext (Begins more quotes) more gap R (source.next? ops s) (source'.next? ops s') := by
  rw [next?_of_started ops h, next?_of_started ops h']
  generalize source.reader.next? ops s = x at hnext ⊢
  generalize source'.reader.next? ops s' = x' at hnext ⊢
  cases hnext with
  | term hbegins hs => exact .term ⟨hbegins, h'.trans h.symm⟩ hs
  | ends hnil hs => exact .ends hnil hs
  | goesOn hne => exact .goesOn hne
  | fails he hs => exact .fails he hs
  | cut hne he => exact .cut hne he

variable [Store.Shifting gap R]

/-- The source once the shell's line is passed. -/
theorem next?_of_dropShebang (h : source.atStart = true) {input : Input}
    (hdrop : source.reader.lexer.input.dropShebang = .ok input) (s : Store) :
    source.next? ops s = TermSource.next? ops { source with
      atStart := false
      reader := { source.reader with lexer := { source.reader.lexer with input } } } s := by
  rw [next?, started, if_pos h, hdrop, next?_of_started ops rfl]

theorem next?_of_fault (h : source.atStart = true) {fault : InputFault}
    (hdrop : source.reader.lexer.input.dropShebang = .error fault) (s : Store) :
    source.next? ops s = (.error (.input fault), source, s) := by
  rw [next?, started, if_pos h, hdrop]

theorem store_of_next?_none (h : (source.next? ops s).1 = .ok none) :
    (source.next? ops s).2.2 = s := by
  rw [next?] at h ⊢
  generalize source.started = x at h ⊢
  obtain e | source' := x
  · cases h
  · exact TermReader.store_of_next?_none ops h

/-- **A source whose text goes on gives the same terms.** -/
theorem sameNext_next? (hmore : more.NextLine) (h : source.Begins more quotes source')
    (hs : R s s') :
    SameNext (Begins more quotes) more gap R (source.next? ops s) (source'.next? ops s') := by
  obtain ⟨hreader, hstart⟩ := h
  rcases hatStart : source.atStart with _ | _
  · rw [hatStart] at hstart
    exact sameNext_of_reader ops hatStart hstart (TermReader.sameNext_next? ops hmore hreader hs)
  · rw [hatStart] at hstart
    -- At the start a line for the shell may take up the whole of the first text.
    rcases Input.dropShebang_append hmore source.reader.lexer.input with
      ⟨fault, hdrop, hdrop'⟩ | ⟨rest, hdrop, hdrop'⟩ | ⟨rest, hline, hdrop, hdrop'⟩
    · rw [← hreader.input] at hdrop'
      rw [next?_of_fault ops hatStart hdrop, next?_of_fault ops hstart hdrop']
      exact .fails rfl hs
    · rw [← hreader.input] at hdrop'
      rw [next?_of_dropShebang ops hatStart hdrop, next?_of_dropShebang ops hstart hdrop']
      exact sameNext_of_reader ops rfl rfl (TermReader.sameNext_next? ops hmore
        ⟨rfl, hreader.ahead, hreader.placeholders, hreader.doubleQuotes⟩ hs)
    · have hnone := TermReader.next?_eq ops
        (r := { source.reader with lexer := { source.reader.lexer with input := [] } })
        hreader.ahead.1 s
      rw [next?_of_dropShebang ops hatStart hdrop, next?_of_started ops rfl]
      dsimp only
      rw [hnone]
      exact .goesOn (hline ▸ List.cons_ne_nil _ _)

/-- **What stands on the next line where a source has no more terms is read as if it stood by
itself.** -/
theorem sameNext_beyond (hend : (source.next? ops s₀).1 = .ok none)
    (h : source.Begins (.char '\n' :: rest) quotes source') (hq : q.reader.lexer.input = rest)
    (hstarted : q.atStart = false) (hahead : q.reader.ahead = none)
    (hplaceholders : q.reader.placeholders = none)
    (hquotes : q.reader.doubleQuotes = quotes) (hs : R s s') :
    SameNext (Begins [] quotes) [] gap R (q.next? ops s) (source'.next? ops s') := by
  obtain ⟨hreader, hstart⟩ := h
  rcases hatStart : source.atStart with _ | _
  · rw [hatStart] at hstart
    rw [next?_of_started ops hatStart] at hend
    exact sameNext_of_reader ops hstarted hstart
      (TermReader.sameNext_beyond ops hend hreader hq hahead hplaceholders hquotes hs)
  · rw [hatStart] at hstart
    rcases Input.dropShebang_append (.inr ⟨rest, rfl⟩) source.reader.lexer.input with
      ⟨fault, hdrop, hdrop'⟩ | ⟨rest', hdrop, hdrop'⟩ | ⟨rest', hline, hdrop, hdrop'⟩
    · rw [next?_of_fault ops hatStart hdrop] at hend
      cases hend
    · rw [← hreader.input] at hdrop'
      rw [next?_of_dropShebang ops hatStart hdrop, next?_of_started ops rfl] at hend
      rw [next?_of_dropShebang ops hstart hdrop']
      exact sameNext_of_reader ops hstarted rfl (TermReader.sameNext_beyond ops hend
        ⟨rfl, hreader.ahead, hreader.placeholders, hreader.doubleQuotes⟩ hq hahead hplaceholders
        hquotes hs)
    · cases hline
      rw [← hreader.input] at hdrop'
      rw [next?_of_dropShebang ops hstart hdrop']
      exact sameNext_of_reader ops hstarted rfl (TermReader.sameNext_next? ops Input.nextLine_nil
        ⟨by rw [hq, List.append_nil], ⟨hahead, hreader.ahead.2⟩,
          ⟨hplaceholders, hreader.placeholders.2⟩, ⟨hquotes, hreader.doubleQuotes.2⟩⟩ hs)

theorem length_dropLine_le {input rest : Input} (h : input.dropLine = .ok rest) :
    rest.length ≤ input.length := by
  induction input with
  | nil =>
    cases h
    exact Nat.le_refl _
  | cons item input ih =>
    cases item with
    | fault fault => cases h
    | char c =>
      rw [Input.dropLine] at h
      split at h
      · cases h
        exact Nat.le_succ _
      · exact (ih h).trans (Nat.le_succ _)

theorem length_dropShebang_le {input rest : Input} (h : input.dropShebang = .ok rest) :
    rest.length ≤ input.length := by
  unfold Input.dropShebang at h
  split at h
  · cases h
  · cases h
  · exact (length_dropLine_le h).trans (by simp only [List.length_cons]; omega)
  · cases h
    exact Nat.le_refl _

/-- **A term takes characters.** -/
theorem length_next?_lt (h : source.reader.Begins [] quotes source.reader) {t : Ref}
    (hnext : source.next? ops s = (.ok (some t), source', s')) :
    source'.reader.lexer.input.length < source.reader.lexer.input.length := by
  have hstarted : ∀ {source : TermSource}, source.atStart = false →
      source.reader.Begins [] quotes source.reader → source.next? ops s = (.ok (some t), source', s') →
      source'.reader.lexer.input.length < source.reader.lexer.input.length := by
    intro source hatStart h hnext
    rw [next?_of_started ops hatStart] at hnext
    rcases hread : source.reader.next? ops s with ⟨result, r, s₁⟩
    rw [hread] at hnext
    cases hnext
    exact TermReader.length_next?_lt ops h hread
  -- Passing the line for the shell only makes the text shorter.
  rcases hatStart : source.atStart with _ | _
  · exact hstarted hatStart h hnext
  · rcases hdrop : source.reader.lexer.input.dropShebang with fault | input
    · rw [next?_of_fault ops hatStart hdrop] at hnext
      cases hnext
    · rw [next?_of_dropShebang ops hatStart hdrop] at hnext
      have hlt := @hstarted { source with
        atStart := false
        reader := { source.reader with lexer := { source.reader.lexer with input } } } rfl
        ⟨(List.append_nil _).symm, h.ahead, h.placeholders, h.doubleQuotes⟩ hnext
      exact Nat.lt_of_lt_of_le hlt (length_dropShebang_le hdrop)

end TermSource

end Clausal

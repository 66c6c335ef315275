import Mathlib.Data.Nat.Digits.Lemmas
import Clausal.Proofs.Syntax.Spelling
import Clausal.Proofs.Syntax.Steps
import Clausal.Proofs.Syntax.Words

/-! # Numerals

The form of numbers is given by what may stand for one (`Text.Numeral`): digits after a letter that
announces their radix, or decimal digits, perhaps with a fraction and then with an exponent.  A lexer that
meets a digit takes the longest beginning of the text that has the form (`Lexer.numberToken_longest`),
although it goes too far at first: what it has passed of a letter without digits, of a point without a
fraction or of an exponent without digits is put back.
-/

namespace Clausal

namespace Text

variable {α : Type} {q : Char → Bool} {c d : Char} {ds more text word rest : List Char}

/-- The number that digits denote, by the place of each. -/
def placeValue (radix : Nat) (digits : List Char) : Nat :=
  Nat.ofDigits radix (digits.reverse.map fun c => (digitValue? radix c).getD 0)

theorem digitsValue_eq (radix : Nat) (digits : List Char) :
    digitsValue radix digits = placeValue radix digits := by
  rw [digitsValue, placeValue, Nat.ofDigits_eq_foldr, List.foldr_map, List.foldr_reverse]
  simp only [Nat.cast_id, Nat.mul_comm radix, Nat.add_comm]

/-! ## The form of numbers -/

/-- The exponent after a fraction and its value, or nothing. -/
inductive Exponent : List Char → Int → Prop
  /-- No exponent. -/
  | none : Exponent [] 0
  /-- A letter, perhaps a sign, and digits. -/
  | some {e : Char} {sign : Option Char} {ds : List Char} (he : e = 'e' ∨ e = 'E')
    (hsign : ∀ c ∈ sign, c = '-' ∨ c = '+') (hds : ds.all isDigit = true) (hne : ds ≠ []) :
    Exponent (e :: (sign.toList ++ ds)) (if sign = some '-' then -placeValue 10 ds else placeValue 10 ds)

/-- A number in decimal digits and the constant that it stands for. -/
inductive DecimalNumeral : List Char → Literal → Prop
  /-- Digits. -/
  | integer {ds : List Char} (hds : ds.all isDigit = true) (hne : ds ≠ []) :
    DecimalNumeral ds (.ofInt (placeValue 10 ds))
  /-- Digits on both sides of a point, perhaps with an exponent. -/
  | fraction {whole fraction exponent : List Char} {n : Int} (hwhole : whole.all isDigit = true)
    (hne : whole ≠ []) (hfraction : fraction.all isDigit = true) (hne' : fraction ≠ [])
    (hexponent : Exponent exponent n) : DecimalNumeral (whole ++ '.' :: (fraction ++ exponent))
      (.float (.ofDecimal (placeValue 10 (whole ++ fraction)) (n - fraction.length)))

/-- The letters that announce a radix other than ten. -/
def radixLetters : List (Char × Nat) := [('x', 16), ('o', 8), ('b', 2)]

/-- A number and the constant that it stands for. -/
inductive Numeral : List Char → Literal → Prop
  /-- An integer in hexadecimal, octal or binary digits. -/
  | radix {letter : Char} {radix : Nat} {ds : List Char}
    (hletter : (letter, radix) ∈ radixLetters)
    (hds : ds.all (isDigitOf radix) = true) (hne : ds ≠ []) :
    Numeral ('0' :: letter :: ds) (.ofInt (placeValue radix ds))
  /-- A number in decimal digits. -/
  | decimal {ds : List Char} {l : Literal} (h : DecimalNumeral ds l) : Numeral ds l

/-- The word is the longest beginning of the text that has the form, and stands for `a`; the rest comes
after it. -/
structure Longest (form : List Char → α → Prop) (text word rest : List Char) (a : α) : Prop where
  /-- The word is a beginning. -/
  text_eq : text = word ++ rest
  /-- It has the form. -/
  has_form : form word a
  /-- No beginning that has the form is longer. -/
  longest : ∀ word' a', form word' a' → word' <+: text → word'.length ≤ word.length

/-! ## Beginnings -/

/-- Characters of a class at the front are among all those of the class there. -/
theorem length_le_takeWhile (hds : ds.all q = true) (h : ds <+: text) :
    ds.length ≤ (text.takeWhile q).length := by
  obtain ⟨more, rfl⟩ := h
  rw [List.takeWhile_append_of_pos (List.all_eq_true.mp hds), List.length_append]
  exact Nat.le_add_right _ _

/-- If another character comes after them, they are all. -/
theorem takeWhile_of_beginning (hds : ds.all q = true) (hd : q d = false) (h : ds ++ d :: more <+: text) :
    text.takeWhile q = ds ∧ d :: more <+: text.dropWhile q := by
  obtain ⟨last, rfl⟩ := h
  have hnot : ¬ q d = true := Bool.eq_false_iff.mp hd
  rw [List.append_assoc, List.takeWhile_append_of_pos (List.all_eq_true.mp hds),
    List.dropWhile_append_of_pos (List.all_eq_true.mp hds), List.cons_append,
    List.takeWhile_cons_of_neg hnot, List.dropWhile_cons_of_neg hnot, List.append_nil]
  exact ⟨rfl, last, rfl⟩

/-- A text that begins with some characters of a class begins with one. -/
theorem head_of_beginning (hds : ds.all q = true) (hne : ds ≠ []) (h : ds <+: text) :
    text.head?.any q = true := by
  obtain ⟨d, ds, rfl⟩ := List.exists_cons_of_ne_nil hne
  obtain ⟨more, rfl⟩ := h
  rw [List.all_cons, Bool.and_eq_true] at hds
  exact hds.1

theorem takeWhile_ne_nil (h : text.head?.any q = true) : text.takeWhile q ≠ [] := by
  cases text with
  | nil => cases h
  | cons d ds =>
    have hd : q d = true := h
    rw [List.takeWhile_cons_of_pos hd]
    exact List.cons_ne_nil _ _

/-- The sign at the front, if there is one. -/
def sign? (text : List Char) : Option Char := text.head?.filter fun c => c = '-' || c = '+'

theorem sign_of_sign? {text : List Char} (hc : c ∈ sign? text) : c = '-' ∨ c = '+' := by
  have hsign := (Option.mem_filter_iff.mp hc).2
  simpa using hsign

theorem exists_sign (text : List Char) : ∃ more, text = (sign? text).toList ++ more := by
  cases hsign : sign? text with
  | none => exact ⟨text, rfl⟩
  | some c =>
    have hhead : c ∈ text.head? := (Option.mem_filter_iff.mp hsign).1
    exact ⟨text.tail, (List.cons_head?_tail hhead).symm⟩

/-- Before digits there is only one way to tell the sign. -/
theorem sign_unique {sign : Option Char} (htext : text = (sign? text).toList ++ more)
    (hsign : ∀ c ∈ sign, c = '-' ∨ c = '+') (hds : ds.all isDigit = true) (hne : ds ≠ [])
    (h : sign.toList ++ ds <+: text) : sign = sign? text ∧ ds <+: more := by
  obtain ⟨d, ds, rfl⟩ := List.exists_cons_of_ne_nil hne
  rw [List.all_cons, Bool.and_eq_true] at hds
  have hdigit : d ≠ '-' ∧ d ≠ '+' := ⟨ne_of_class hds.1 (by decide), ne_of_class hds.1 (by decide)⟩
  obtain ⟨last, hlast⟩ := h
  -- The first character of the text tells whether there is a sign.
  have hsame : sign = sign? text := by
    cases sign with
    | none =>
      rw [← hlast]
      simp [sign?, Option.filter_some, hdigit]
    | some c =>
      have hc := hsign c rfl
      rw [← hlast]
      simp [sign?, Option.filter_some, hc]
  refine ⟨hsame, last, ?_⟩
  rw [htext, ← hsame, List.append_assoc] at hlast
  exact List.append_cancel_left hlast

/-- Without an exponent at the front there is none to take. -/
theorem longest_exponent_none (h : ∀ e sign ds, (e = 'e' ∨ e = 'E') → (∀ c ∈ sign, c = '-' ∨ c = '+') →
    ds.all isDigit = true → ds ≠ [] → ¬ e :: (Option.toList sign ++ ds) <+: text) :
    Longest Exponent text [] text 0 := by
  refine ⟨rfl, .none, ?_⟩
  intro word' n hword hprefix
  cases hword with
  | none => exact Nat.le_refl _
  | some he hsign hds hne => exact absurd hprefix (h _ _ _ he hsign hds hne)

/-- The digits of a fraction and the exponent after them, at the front of a text. -/
theorem length_fraction_le {exponent exponent' fraction : List Char} {n n' : Int}
    (hexponent : Longest Exponent (text.dropWhile isDigit) exponent rest n)
    (hfraction : fraction.all isDigit = true) (hexponent' : Exponent exponent' n')
    (h : fraction ++ exponent' <+: text) :
    (fraction ++ exponent').length ≤ (text.takeWhile isDigit).length + exponent.length := by
  have hform := hexponent'
  cases hexponent' with
  | none =>
    rw [List.append_nil] at h ⊢
    exact Nat.le_add_right_of_le (length_le_takeWhile hfraction h)
  | @some e sign ds he hsign hds hne =>
    have hnot : isDigit e = false := by rcases he with rfl | rfl <;> decide
    obtain ⟨heq, hback⟩ := takeWhile_of_beginning hfraction hnot h
    have hle := hexponent.longest _ _ hform hback
    rw [List.length_append, heq]
    exact Nat.add_le_add_left hle _

/-- Without a fraction after the digits at the front, they are the whole number. -/
theorem longest_integer (hdigits : text.head?.any isDigit = true)
    (hno : ∀ d more, isDigit d = true → ¬ '.' :: d :: more <+: text.dropWhile isDigit) :
    Longest DecimalNumeral text (text.takeWhile isDigit) (text.dropWhile isDigit)
      (.ofInt (placeValue 10 (text.takeWhile isDigit))) := by
  refine ⟨List.takeWhile_append_dropWhile.symm, .integer List.all_takeWhile (takeWhile_ne_nil hdigits), ?_⟩
  intro word' l hword hprefix
  cases hword with
  | integer hds hne => exact length_le_takeWhile hds hprefix
  | @fraction whole fraction exponent n hwhole hne hfraction hne' hexponent =>
    obtain ⟨-, hrest⟩ := takeWhile_of_beginning hwhole (by decide) hprefix
    obtain ⟨d, ds, rfl⟩ := List.exists_cons_of_ne_nil hne'
    rw [List.all_cons, Bool.and_eq_true] at hfraction
    exact absurd hrest (hno d (ds ++ exponent) hfraction.1)

/-- With a fraction, the number goes on to the end of the fraction and the longest exponent there. -/
theorem longest_fraction {exponent : List Char} {n : Int} (hdigits : text.head?.any isDigit = true)
    (hpoint : text.dropWhile isDigit = '.' :: more) (hdigits' : more.head?.any isDigit = true)
    (hexponent : Longest Exponent (more.dropWhile isDigit) exponent rest n) :
    Longest DecimalNumeral text (text.takeWhile isDigit ++ '.' :: (more.takeWhile isDigit ++ exponent)) rest
      (.float (.ofDecimal (placeValue 10 (text.takeWhile isDigit ++ more.takeWhile isDigit))
        (n - (more.takeWhile isDigit).length))) := by
  refine ⟨?_, .fraction List.all_takeWhile (takeWhile_ne_nil hdigits) List.all_takeWhile
    (takeWhile_ne_nil hdigits') hexponent.has_form, ?_⟩
  · have hmore : more = more.takeWhile isDigit ++ (exponent ++ rest) := by
      rw [← hexponent.text_eq, List.takeWhile_append_dropWhile]
    rw [List.append_assoc, List.cons_append, List.append_assoc, ← hmore, ← hpoint,
      List.takeWhile_append_dropWhile]
  · intro word' l hword hprefix
    rw [List.length_append, List.length_cons, List.length_append]
    cases hword with
    | integer hds hne => exact Nat.le_add_right_of_le (length_le_takeWhile hds hprefix)
    | fraction hwhole hne hfraction hne' hexponent' =>
      obtain ⟨heq, hrest⟩ := takeWhile_of_beginning hwhole (by decide) hprefix
      rw [hpoint] at hrest
      have hle := length_fraction_le hexponent hfraction hexponent' (List.cons_prefix_cons.mp hrest).2
      rw [List.length_append, List.length_cons, heq]
      omega

/-- Before a letter there is nothing but the digit. -/
theorem length_decimal_le {l : Literal} (hd : isDigit d = false) (hpoint : d ≠ '.')
    (hword : DecimalNumeral word l) (h : word <+: c :: d :: text) : word.length ≤ 1 := by
  have hnot : ¬ isDigit d = true := Bool.eq_false_iff.mp hd
  have htake : (c :: d :: text).takeWhile isDigit <+: [c] := by
    rw [List.takeWhile_cons]
    split
    · rw [List.takeWhile_cons_of_neg hnot]
    · exact List.nil_prefix
  cases hword with
  | integer hds hne => exact (length_le_takeWhile hds h).trans htake.length_le
  | @fraction whole fraction exponent n hwhole hne hfraction hne' hexponent =>
    obtain ⟨heq, hrest⟩ := takeWhile_of_beginning hwhole (by decide) h
    obtain ⟨c', cs, rfl⟩ := List.exists_cons_of_ne_nil hne
    obtain ⟨last, hlast⟩ := h
    rw [heq] at htake
    obtain rfl : cs = [] := List.prefix_nil.mp (List.cons_prefix_cons.mp htake).2
    exact absurd (List.cons.inj (List.cons.inj hlast).2).1.symm hpoint

theorem radixLetters_cases {letter : Char} {radix : Nat} (h : (letter, radix) ∈ radixLetters) :
    isDigit letter = false ∧ letter ≠ '.' ∧
      ∀ radix', (letter, radix') ∈ radixLetters → radix' = radix := by
  have hall : ∀ e ∈ radixLetters, isDigit e.1 = false ∧ e.1 ≠ '.' ∧
      ∀ e' ∈ radixLetters, e'.1 = e.1 → e'.2 = e.2 := by decide
  obtain ⟨hdigit, hpoint, hunique⟩ := hall _ h
  exact ⟨hdigit, hpoint, fun radix' h' => hunique _ h' rfl⟩

/-- After a zero and a letter, the longest number has all the digits that come, or there are none and it
is the zero. -/
theorem longest_radix {letter : Char} {radix : Nat} (h : (letter, radix) ∈ radixLetters)
    (hdigits : text.head?.any (isDigitOf radix) = true) :
    Longest Numeral ('0' :: letter :: text) ('0' :: letter :: text.takeWhile (isDigitOf radix))
      (text.dropWhile (isDigitOf radix)) (.ofInt (placeValue radix (text.takeWhile (isDigitOf radix)))) := by
  obtain ⟨hdigit, hpoint, hunique⟩ := radixLetters_cases h
  refine ⟨?_, .radix h List.all_takeWhile (takeWhile_ne_nil hdigits), ?_⟩
  · rw [List.cons_append, List.cons_append, List.takeWhile_append_dropWhile]
  · intro word' l hword hprefix
    cases hword with
    | radix h' hds hne =>
      obtain ⟨rfl, hdigits'⟩ := List.cons_prefix_cons.mp (List.cons_prefix_cons.mp hprefix).2
      obtain rfl := hunique _ h'
      exact Nat.succ_le_succ (Nat.succ_le_succ (length_le_takeWhile hds hdigits'))
    | decimal hdecimal =>
      exact (length_decimal_le hdigit hpoint hdecimal hprefix).trans (Nat.succ_le_succ (Nat.zero_le _))

theorem longest_zero {letter : Char} {radix : Nat} (h : (letter, radix) ∈ radixLetters)
    (hdigits : ¬ text.head?.any (isDigitOf radix) = true) :
    Longest Numeral ('0' :: letter :: text) ['0'] (letter :: text) (.ofInt (placeValue 10 ['0'])) := by
  obtain ⟨hdigit, hpoint, hunique⟩ := radixLetters_cases h
  refine ⟨rfl, .decimal (.integer (by decide) (by decide)), ?_⟩
  intro word' l hword hprefix
  cases hword with
  | radix h' hds hne =>
    obtain ⟨rfl, hdigits'⟩ := List.cons_prefix_cons.mp (List.cons_prefix_cons.mp hprefix).2
    obtain rfl := hunique _ h'
    exact absurd (head_of_beginning hds hne hdigits') hdigits
  | decimal hdecimal => exact length_decimal_le hdigit hpoint hdecimal hprefix

/-- Without a letter after a zero, a number is one in decimal digits. -/
theorem longest_decimal {l : Literal} (hno : ∀ e ∈ radixLetters, ¬ ['0', e.1] <+: text)
    (h : Longest DecimalNumeral text word rest l) : Longest Numeral text word rest l := by
  refine ⟨h.text_eq, .decimal h.has_form, ?_⟩
  intro word' l' hword hprefix
  cases hword with
  | @radix letter radix ds hletter hds hne =>
    have hfront : ['0', letter] <+: '0' :: letter :: ds := ⟨ds, rfl⟩
    exact absurd (hfront.trans hprefix) (hno _ hletter)
  | decimal hdecimal => exact h.longest _ _ hdecimal hprefix

end Text

namespace Lexer

variable {text : List Char}

theorem peek?_chars (text : List Char) (p : Position) (b : Bool) :
    peek? ⟨text.map .char, p, b⟩ = .ok text.head? ⟨text.map .char, p, b⟩ := by
  cases text <;> rfl

theorem takeWhile_chars (q : Char → Bool) (text : List Char) (p : Position) (b : Bool) :
    takeWhile q ⟨text.map .char, p, b⟩ =
      .ok (text.takeWhile q) ⟨(text.dropWhile q).map .char, p.after (text.takeWhile q), b⟩ := by
  have hall : (text.takeWhile q).all q = true := List.all_takeWhile
  have hstops : Input.Stops q ((text.dropWhile q).map .char) := by
    rcases hdrop : text.dropWhile q with _ | ⟨d, rest⟩
    · trivial
    · have hhead := List.head?_dropWhile_not q text
      rw [hdrop] at hhead
      simpa [Input.Stops] using hhead
  have htake := takeWhile_eq hall hstops p b
  rw [← List.map_append, List.takeWhile_append_dropWhile] at htake
  exact htake

theorem forM_skip (sign : Option Char) (more : List Char) (p : Position) (b : Bool) :
    ∃ p', sign.forM skip ⟨(sign.toList ++ more).map .char, p, b⟩ = .ok () ⟨more.map .char, p', b⟩ := by
  cases sign with
  | none => exact ⟨p, rfl⟩
  | some c => exact ⟨p.next c, rfl⟩

theorem forM_putBack (sign : Option Char) (more : List Char) (p : Position) (b : Bool) :
    sign.forM putBack ⟨more.map .char, p, b⟩ = .ok () ⟨(sign.toList ++ more).map .char, p, b⟩ := by
  cases sign <;> rfl

open Text (Longest Exponent DecimalNumeral Numeral isDigit sign?)

/-- **The longest exponent is taken**, and what was passed of an incomplete one is put back. -/
theorem exponentPart_longest (text : List Char) (p : Position) (b : Bool) :
    ∃ word rest n p', Longest Exponent text word rest n ∧
      exponentPart ⟨text.map .char, p, b⟩ = .ok n ⟨rest.map .char, p', b⟩ := by
  by_cases hletter : (text.head?.filter fun c => c = 'e' || c = 'E') = none
  · refine ⟨[], text, 0, p, Text.longest_exponent_none ?_, ?_⟩
    · rintro e sign ds he - - - ⟨last, rfl⟩
      simp [Option.filter_some, he] at hletter
    · rw [exponentPart, bind_eq_of_ok (peek?_chars text p b), hletter]
      rfl
  · obtain ⟨e, he⟩ := Option.ne_none_iff_exists'.mp hletter
    obtain ⟨hhead, he'⟩ := Option.mem_filter_iff.mp he
    have hexponent : e = 'e' ∨ e = 'E' := by simpa using he'
    obtain ⟨cs, rfl⟩ : ∃ cs, text = e :: cs := ⟨text.tail, (List.cons_head?_tail hhead).symm⟩
    obtain ⟨more, hmore⟩ := Text.exists_sign cs
    have hskip : skip e ⟨(e :: cs).map .char, p, b⟩ = .ok () ⟨cs.map .char, p.next e, b⟩ := rfl
    obtain ⟨p₁, hskip'⟩ := forM_skip (sign? cs) more (p.next e) b
    rw [← hmore] at hskip'
    -- Any exponent at the front has this letter and this sign.
    have hunique : ∀ {e' : Char} {sign : Option Char} {ds : List Char}, (∀ c ∈ sign, c = '-' ∨ c = '+') →
        ds.all isDigit = true → ds ≠ [] → e' :: (sign.toList ++ ds) <+: e :: cs →
          sign = sign? cs ∧ ds <+: more := by
      intro e' sign ds hsign hds hne hprefix
      exact Text.sign_unique hmore hsign hds hne (List.cons_prefix_cons.mp hprefix).2
    by_cases hdigits : more.head?.any isDigit = true
    · refine ⟨e :: ((sign? cs).toList ++ more.takeWhile isDigit), more.dropWhile isDigit, _,
        p₁.after (more.takeWhile isDigit), ⟨?_, .some hexponent (fun c => Text.sign_of_sign?)
          List.all_takeWhile (Text.takeWhile_ne_nil hdigits), ?_⟩, ?_⟩
      · rw [List.cons_append, List.append_assoc, List.takeWhile_append_dropWhile, ← hmore]
      · intro word' n hword hprefix
        cases hword with
        | none => exact Nat.zero_le _
        | some he hsign hds hne =>
          obtain ⟨rfl, hds'⟩ := hunique hsign hds hne hprefix
          have hle := Text.length_le_takeWhile hds hds'
          simp only [List.length_cons, List.length_append]
          omega
      · rw [exponentPart, bind_eq_of_ok (peek?_chars _ p b), he]
        dsimp only
        rw [bind_eq_of_ok hskip, bind_eq_of_ok (peek?_chars _ _ b), ← sign?, bind_eq_of_ok hskip',
          bind_eq_of_ok (peek?_chars _ _ b), if_pos hdigits, bind_eq_of_ok (takeWhile_chars _ _ _ b),
          Text.digitsValue_eq]
        rfl
    · refine ⟨[], e :: cs, 0, p₁, Text.longest_exponent_none ?_, ?_⟩
      · intro e' sign ds _ hsign hds hne hprefix
        exact hdigits (Text.head_of_beginning hds hne (hunique hsign hds hne hprefix).2)
      · rw [exponentPart, bind_eq_of_ok (peek?_chars _ p b), he]
        dsimp only
        rw [bind_eq_of_ok hskip, bind_eq_of_ok (peek?_chars _ _ b), ← sign?, bind_eq_of_ok hskip',
          bind_eq_of_ok (peek?_chars _ _ b), if_neg hdigits,
          bind_eq_of_ok (forM_putBack (sign? cs) more p₁ b), ← hmore]
        rfl

/-- **The longest number in decimal digits is taken.**  A point without a digit after it is put back. -/
theorem decimalToken_longest {c : Char} (hc : isDigit c = true) (cs : List Char) (p : Position)
    (b : Bool) : ∃ word rest l p', Longest DecimalNumeral (c :: cs) word rest l ∧
      decimalToken c ⟨cs.map .char, p, b⟩ = .ok (.literal l) ⟨rest.map .char, p', b⟩ := by
  have htake := takeWhile_chars isDigit cs p b
  have hwhole : (c :: cs).takeWhile isDigit = c :: cs.takeWhile isDigit :=
    List.takeWhile_cons_of_pos hc
  have hmore : (c :: cs).dropWhile isDigit = cs.dropWhile isDigit := List.dropWhile_cons_of_pos hc
  have hhead : (c :: cs).head?.any isDigit = true := hc
  have hinteger := Text.longest_integer hhead
  rw [hwhole, hmore] at hinteger
  by_cases hdot : ∃ cs', cs.dropWhile isDigit = '.' :: cs'
  · obtain ⟨cs', hcs'⟩ := hdot
    rw [hcs'] at htake
    have hskip : ∀ q, skipIf '.' ⟨('.' :: cs').map .char, q, b⟩ =
        .ok true ⟨cs'.map .char, q.next '.', b⟩ := fun _ => rfl
    by_cases hdigits : cs'.head?.any isDigit = true
    · obtain ⟨exponent, rest, n, p', hexponent, hread⟩ := exponentPart_longest (cs'.dropWhile isDigit)
        (((p.after (cs.takeWhile isDigit)).next '.').after (cs'.takeWhile isDigit)) b
      have hfraction := Text.longest_fraction hhead (hmore.trans hcs') hdigits hexponent
      refine ⟨_, rest, _, p', hfraction, ?_⟩
      rw [decimalToken, bind_eq_of_ok htake]
      dsimp only
      rw [bind_eq_of_ok (hskip _), if_pos rfl, bind_eq_of_ok (peek?_chars _ _ b), if_pos hdigits,
        bind_eq_of_ok (takeWhile_chars _ _ _ b), bind_eq_of_ok hread, Text.digitsValue_eq, hwhole]
      rfl
    · refine ⟨_, _, _, (p.after (cs.takeWhile isDigit)).next '.', hinteger ?_, ?_⟩
      · intro d more hd hprefix
        rw [hcs'] at hprefix
        obtain ⟨last, rfl⟩ := (List.cons_prefix_cons.mp hprefix).2
        exact hdigits hd
      · rw [decimalToken, bind_eq_of_ok htake]
        dsimp only
        rw [bind_eq_of_ok (hskip _), if_pos rfl, bind_eq_of_ok (peek?_chars _ _ b), if_neg hdigits,
          integerToken, Text.digitsValue_eq, hcs']
        rfl
  · have hstops : Input.Stops (· = '.') ((cs.dropWhile isDigit).map .char) := by
      rcases hrest : cs.dropWhile isDigit with _ | ⟨d, rest⟩
      · trivial
      · refine decide_eq_false ?_
        rintro rfl
        exact hdot ⟨rest, hrest⟩
    refine ⟨_, _, _, p.after (cs.takeWhile isDigit), hinteger ?_, ?_⟩
    · rintro d more - ⟨last, hlast⟩
      exact hdot ⟨d :: more ++ last, hlast.symm⟩
    · rw [decimalToken, bind_eq_of_ok htake]
      dsimp only
      rw [bind_eq_of_ok (skipIf_eq hstops _ _), if_neg Bool.false_ne_true, integerToken,
        Text.digitsValue_eq]
      rfl

theorem radix?_eq_some {letter : Char} {radix : Nat} :
    radix? letter = some radix ↔ (letter, radix) ∈ Text.radixLetters := by
  unfold radix?
  constructor
  · intro h
    split at h <;> cases h <;> decide
  · intro h
    simp only [Text.radixLetters, List.mem_cons, Prod.mk.injEq, List.not_mem_nil, or_false] at h
    rcases h with ⟨rfl, rfl⟩ | ⟨rfl, rfl⟩ | ⟨rfl, rfl⟩ <;> rfl

/-- A letter without digits of its radix after it is put back. -/
theorem radixToken_longest {letter : Char} {radix : Nat} (h : (letter, radix) ∈ Text.radixLetters)
    (text : List Char) (p : Position) (b : Bool) :
    ∃ word rest l p', Longest Numeral ('0' :: letter :: text) word rest l ∧
      radixToken letter radix ⟨(letter :: text).map .char, p, b⟩ =
        .ok (.literal l) ⟨rest.map .char, p', b⟩ := by
  have hskip : skip letter ⟨(letter :: text).map .char, p, b⟩ =
      .ok () ⟨text.map .char, p.next letter, b⟩ := rfl
  by_cases hdigits : text.head?.any (Text.isDigitOf radix) = true
  · refine ⟨_, _, _, (p.next letter).after (text.takeWhile (Text.isDigitOf radix)),
      Text.longest_radix h hdigits, ?_⟩
    rw [radixToken, bind_eq_of_ok hskip, bind_eq_of_ok (peek?_chars _ _ b), if_pos hdigits,
      map_eq_of_ok (takeWhile_chars _ _ _ b), integerToken, Text.digitsValue_eq]
  · refine ⟨_, _, _, p.next letter, Text.longest_zero h hdigits, ?_⟩
    rw [radixToken, bind_eq_of_ok hskip, bind_eq_of_ok (peek?_chars _ _ b), if_neg hdigits,
      integerToken, Text.digitsValue_eq]
    rfl

/-- **The longest number is taken**, unless a quote comes after a zero. -/
theorem numberToken_longest {c : Char} (hc : isDigit c = true) (cs : List Char)
    (hquote : ¬ ['0', '\x27'] <+: c :: cs) (p : Position) (b : Bool) :
    ∃ word rest l p', Longest Numeral (c :: cs) word rest l ∧
      numberToken c ⟨(c :: cs).map .char, p, b⟩ = .ok (.literal l) ⟨rest.map .char, p', b⟩ := by
  by_cases hradix : ∃ e ∈ Text.radixLetters, ['0', e.1] <+: c :: cs
  · obtain ⟨⟨letter, radix⟩, hletter, text, htext⟩ := hradix
    obtain ⟨rfl, rfl⟩ := List.cons.inj htext
    obtain ⟨word, rest, l, p', hlongest, htoken⟩ := radixToken_longest hletter text (p.next '0') b
    refine ⟨word, rest, l, p', hlongest, ?_⟩
    rw [← htoken]
    have hskip : skip '0' ⟨('0' :: letter :: text).map .char, p, b⟩ =
        .ok () ⟨(letter :: text).map .char, p.next '0', b⟩ := rfl
    show numberToken '0' ⟨('0' :: letter :: text).map .char, p, b⟩ = _
    rw [numberToken, bind_eq_of_ok hskip, if_pos rfl, bind_eq_of_ok (peek?_chars _ _ b)]
    refine congrFun ?_ _
    split
    · rename_i heq
      obtain rfl := Option.some.inj heq
      cases radix?_eq_some.mpr hletter
    · rename_i heq
      obtain rfl := Option.some.inj heq
      rw [radix?_eq_some.mpr hletter]
    · rename_i heq
      cases heq
  · obtain ⟨word, rest, l, p', hlongest, htoken⟩ := decimalToken_longest hc cs (p.next c) b
    refine ⟨word, rest, l, p', Text.longest_decimal ?_ hlongest, ?_⟩
    · intro e he hprefix
      exact hradix ⟨e, he, hprefix⟩
    · rw [← htoken]
      refine numberToken_eq ?_ p b
      rintro rfl
      cases cs with
      | nil => trivial
      | cons d cs =>
        refine Bool.or_eq_false_iff.mpr ⟨decide_eq_false ?_, ?_⟩
        · rintro rfl
          exact hquote ⟨cs, rfl⟩
        · rw [Option.isSome_eq_false_iff, Option.isNone_iff_eq_none, Option.eq_none_iff_forall_not_mem]
          intro radix hd
          exact hradix ⟨(d, radix), radix?_eq_some.mp hd, cs, rfl⟩

/-- After a zero and a quote there is no way back: what comes is the code of a character or an error. -/
theorem numberToken_quote (cs : List Char) (p : Position) (b : Bool) {t : Token} {lx : Lexer}
    (h : numberToken '0' ⟨('0' :: '\x27' :: cs).map .char, p, b⟩ = .ok t lx) :
    ∃ d : Char, t = .literal (.ofInt d.toNat) := by
  have hcode : Gives charCodeToken fun t => ∃ d : Char, t = .literal (.ofInt d.toNat) := by
    refine .after fun _ => .after fun c => ?_
    dsimp only
    split
    · exact .after fun _ => .after fun d => gives_pure ⟨d, rfl⟩
    · split
      · exact .after fun _ => gives_pure ⟨_, rfl⟩
      · exact gives_pure ⟨_, rfl⟩
  have hnumber : numberToken '0' ⟨('0' :: '\x27' :: cs).map .char, p, b⟩ =
      charCodeToken ⟨('\x27' :: cs).map .char, p.next '0', b⟩ := rfl
  rw [hnumber] at h
  exact (hcode _).of_ok h

end Lexer

/-! ## Integers -/

/-- An integer is in the representation that its size calls for, and has its value there. -/
theorem Literal.ofInt_cases (n : Int) :
    (-2 ^ 63 ≤ n ∧ n < 2 ^ 63 ∧ ∃ k : Int64, k.toInt = n ∧ ofInt n = small k) ∨
      (n < -2 ^ 63 ∨ 2 ^ 63 ≤ n) ∧ ofInt n = big n := by
  by_cases hn : (-smallLimit ≤ n && n < smallLimit) = true
  · have hsmall : ofInt n = small (.ofInt n) := if_pos hn
    rw [Bool.and_eq_true, decide_eq_true_iff, decide_eq_true_iff, smallLimit] at hn
    exact .inl ⟨by omega, by omega, _, Int64.toInt_ofInt_of_le (by omega) (by omega), hsmall⟩
  · have hbig : ofInt n = big n := if_neg hn
    rw [Bool.and_eq_true, decide_eq_true_iff, decide_eq_true_iff, smallLimit] at hn
    exact .inr ⟨by omega, hbig⟩

namespace TermReader

/-- What is cut off the input is what the reader gives. -/
theorem takes_of_cutsAll {input rest : Input} {tokens : List Token} (h : Lexer.CutsAll input tokens rest)
    (quotes : DoubleQuotes) (p : Position) :
    ∃ p', Takes { lexer := ⟨input, p, false⟩, doubleQuotes := quotes } tokens
      { lexer := ⟨rest, p', false⟩, doubleQuotes := quotes } := by
  induction h generalizing p with
  | nil input => exact ⟨p, .nil _⟩
  | cons h _ ih =>
    obtain ⟨p₁, htoken⟩ := h p
    obtain ⟨p', htakes⟩ := ih p₁
    refine ⟨p', .cons ?_ htakes⟩
    simp only [token?, htoken]

end TermReader

namespace Reading

variable {reader reader' reader'' : TermReader} {token : Token}

/-- An integer is an operand. -/
theorem beginOperand_integer (ops : OperatorTable) {n : Int}
    (h : reader.token? = some (.literal (.ofInt n), reader')) (s : Store)
    (names : List (String × Ref)) (begun : List Construct) :
    beginOperand ops ⟨reader, s, names, begun⟩ =
      .ok (.complete (s.literal (.ofInt n)).1 0) ⟨reader', (s.literal (.ofInt n)).2, names, begun⟩ := by
  have hnumber := Literal.isNumber_ofInt n
  rw [beginOperand, bind_eq_of_ok (nextToken_of_token? h s names begun)]
  generalize Literal.ofInt n = l at hnumber
  cases l with
  | atom name => cases hnumber
  | small n | big n | float x => rfl

/-- With a minus in front it is the integer of the other sign, in the representation for that one. -/
theorem beginOperand_minus (ops : OperatorTable) {n : Int}
    (h : reader.token? = some (.literal (.atom "-"), reader'))
    (h' : reader'.token? = some (.literal (.ofInt n), reader'')) (s : Store)
    (names : List (String × Ref)) (begun : List Construct) :
    beginOperand ops ⟨reader, s, names, begun⟩ = .ok (.complete (s.literal (.ofInt (-n))).1 0)
      ⟨reader'', (s.literal (.ofInt (-n))).2, names, begun⟩ := by
  have hnumber := Literal.isNumber_ofInt n
  have hnext := nextToken_of_token? (TermReader.token?_held (.literal (.ofInt n))
    (TermReader.ahead_of_token? h')) s names begun
  rw [beginOperand, bind_eq_of_ok (nextToken_of_token? h s names begun)]
  dsimp only
  rw [nameOperand, bind_eq_of_ok (peekToken_of_token? h' s names begun)]
  dsimp only
  rw [hnumber, decide_eq_true rfl, Bool.and_self, if_pos rfl, bind_eq_of_ok hnext, Literal.neg_ofInt]
  rfl

/-- A full stop after the first operand ends the term. -/
theorem read_of_operand (ops : OperatorTable) {s s' : Store} {t : Ref} {priority : Nat}
    (hoperand : beginOperand ops (reader.beginning s) =
      .ok (.complete t priority) ⟨reader', s', [], [.expression 1200]⟩)
    (hstop : reader'.token? = some (.stop, reader'')) :
    reader.read ops s = (.ok t, reader'', s') := by
  have hpeek := peekToken_of_token? hstop s' [] []
  have hheld := TermReader.token?_held .stop (TermReader.ahead_of_token? hstop)
  have hbegin : Next ops (.operand, reader.beginning s)
      (.complete t priority, ⟨reader', s', [], [.expression 1200]⟩) := next_operand hoperand
  have hgive : Next ops (.complete t priority, ⟨reader', s', [], [.expression 1200]⟩)
      (.complete t priority, ⟨{ reader'' with ahead := some .stop }, s', [], []⟩) := by
    refine next_complete ?_
    have hcontinuation : continuation? ops 1200 priority ⟨reader', s', [], []⟩ =
        .ok none ⟨{ reader'' with ahead := some .stop }, s', [], []⟩ := by
      rw [continuation?, bind_eq_of_ok hpeek]
      rfl
    rw [giveOperand, giveExpression, bind_eq_of_ok hcontinuation]
    rfl
  exact read_of_complete (.head hbegin (.single hgive)) hheld

end Reading

namespace TermWriter

open Lexer (CutsAll)

theorem write_int (w : TermWriter) (n : Int) : w.write (.int n) = toString n := by
  have hplace : Place.operand 1200 ≠ Place.tail := by decide
  have hpieces : w.pieces (.operand 1200) (.int n) = w.literal 1200 (.ofInt n) := by
    rw [Term.int, pieces, decide_eq_false hplace, Bool.false_and, if_neg Bool.false_ne_true]
    rfl
  rw [write, hpieces, literal_ofInt]
  exact String.empty_append

/-- **An integer is read back from what is written of it**, whatever the operators and wherever the
constant comes to stand: it is the same constant, and the reader is at its end. -/
theorem reads_int (w : TermWriter) (ops : OperatorTable) (quotes : DoubleQuotes) (s : Store) (n : Int) :
    ∃ reader, (TermReader.ofInput (.ofText (w.write (.int n) ++ " .")) quotes).read ops s =
      (.ok (s.literal (.ofInt n)).1, reader, (s.literal (.ofInt n)).2) ∧ reader.atEnd.1 = .ok true := by
  have hinput : Input.ofText (w.write (.int n) ++ " .") =
      (toString n).toList.map .char ++ [.char ' ', .char '.'] := by
    rw [write_int, Input.ofText, String.toList_append, List.map_append]
    rfl
  have hends := fun digits => Lexer.endsNumber_closing (d := ' ') (by decide) digits [.char '.']
  rw [TermReader.ofInput, hinput, Lexer.toList_toString_int]
  cases n with
  | ofNat n =>
    have hcuts := (Lexer.cuts_digits n (hends _)).all.append Lexer.cuts_stop.all
    obtain ⟨p, htakes⟩ := TermReader.takes_of_cutsAll hcuts quotes {}
    rcases htakes with _ | ⟨hnumber, _ | ⟨hstop, _ | _⟩⟩
    exact ⟨_, Reading.read_of_operand ops (Reading.beginOperand_integer ops hnumber s [] _) hstop, rfl⟩
  | negSucc n =>
    have hcuts := CutsAll.cons (Lexer.cuts_minus (n + 1))
      ((Lexer.cuts_digits (n + 1) (hends _)).all.append Lexer.cuts_stop.all)
    obtain ⟨p, htakes⟩ := TermReader.takes_of_cutsAll hcuts quotes {}
    rcases htakes with _ | ⟨hminus, _ | ⟨hnumber, _ | ⟨hstop, _ | _⟩⟩⟩
    have hoperand := Reading.beginOperand_minus ops hminus hnumber s [] [.expression 1200]
    have hneg : -((n + 1 : Nat) : Int) = .negSucc n := rfl
    rw [hneg] at hoperand
    rw [if_pos (Int.negSucc_lt_zero n)]
    exact ⟨_, Reading.read_of_operand ops hoperand hstop, rfl⟩

/-- **Numbers keep their value.**  In front of a digit, the longest number there is read, with the value of
its digits, and what comes after it is left; only a zero before a quote gives the code of a character or
an error.  An integer of any size is in the representation that its size calls for, also after a minus;
so it is read back from what is written of it. -/
theorem numbers_exact (w : TermWriter) (ops : OperatorTable) :
    (∀ (c : Char) (cs : List Char) (p : Position) (b : Bool), Text.isDigit c = true →
      ¬ ['0', '\x27'] <+: c :: cs → ∃ word rest l p', Text.Longest Text.Numeral (c :: cs) word rest l ∧
        Lexer.numberToken c ⟨(c :: cs).map .char, p, b⟩ = .ok (.literal l) ⟨rest.map .char, p', b⟩) ∧
    (∀ (cs : List Char) (p : Position) (b : Bool) (t : Token) (lx : Lexer),
      Lexer.numberToken '0' ⟨('0' :: '\x27' :: cs).map .char, p, b⟩ = .ok t lx →
        ∃ d : Char, t = .literal (.ofInt d.toNat)) ∧
    (∀ n : Int, (-2 ^ 63 ≤ n ∧ n < 2 ^ 63 ∧ ∃ k : Int64, k.toInt = n ∧ Literal.ofInt n = .small k) ∨
      (n < -2 ^ 63 ∨ 2 ^ 63 ≤ n) ∧ Literal.ofInt n = .big n) ∧
    (∀ (n : Int) (reader reader' reader'' : TermReader),
      reader.token? = some (.literal (.atom "-"), reader') →
        reader'.token? = some (.literal (.ofInt n), reader'') → ∀ s names begun,
          Reading.beginOperand ops ⟨reader, s, names, begun⟩ =
            .ok (.complete (s.literal (.ofInt (-n))).1 0)
              ⟨reader'', (s.literal (.ofInt (-n))).2, names, begun⟩) ∧
    ∀ (n : Int) (quotes : DoubleQuotes) (s : Store), ∃ reader,
      (TermReader.ofInput (.ofText (w.write (.int n) ++ " .")) quotes).read ops s =
        (.ok (s.literal (.ofInt n)).1, reader, (s.literal (.ofInt n)).2) ∧ reader.atEnd.1 = .ok true := by
  refine ⟨?_, ?_, Literal.ofInt_cases, ?_, ?_⟩
  · intro c cs p b hc hquote
    exact Lexer.numberToken_longest hc cs hquote p b
  · intro cs p b t lx h
    exact Lexer.numberToken_quote cs p b h
  · intro n reader reader' reader'' h h' s names begun
    exact Reading.beginOperand_minus ops h h' s names begun
  · intro n quotes s
    exact reads_int w ops quotes s n

end TermWriter

end Clausal

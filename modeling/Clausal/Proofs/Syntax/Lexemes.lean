import Clausal.Proofs.Syntax.Words

/-! # Texts cut into tokens

`Lexer.Lexes` says which tokens a lexer gives until nothing but layout is left, which are determined by the
lexer (`Lexer.Lexes.unique`).

Here a text is lexed from its end: a space, a bracket or a word in front of a text that is lexed gives one
more token, as long as the word ends where the text begins (`Lexer.Apart`).  Two things may follow the
text, a space or a point, and the point is a full stop, except after a symbol: there it goes to the name
that the symbol ends (`Lexer.Ending`).  Names between quotes run together, so the text after a quote is
described as well (`Lexer.Lexical`).
-/

namespace Clausal.Lexer

variable {b : Bool} {input rest : Input} {c d : Char} {cs ws : List Char} {t : Token}
  {tokens : List Token} {lx : Lexer}

/-! ## Tokens up to the end -/

/-- The lexer gives the tokens, and then nothing but layout is left. -/
inductive Lexes : Lexer → List Token → Prop
  /-- There is nothing but layout. -/
  | done {lx lx' : Lexer} (h : atEnd lx = .ok true lx') : Lexes lx []
  /-- A token comes first. -/
  | more {lx lx' : Lexer} {t : Token} {tokens : List Token} (h : token lx = .ok t lx')
    (hrest : Lexes lx' tokens) : Lexes lx (t :: tokens)

theorem scanLayout_eq {seen : Bool} {p : Position}
    (h : skipLayout .none false lx.position lx.input = (.ok seen, p, rest)) :
    scanLayout lx = .ok seen { lx with position := p, input := rest } := by
  rw [scanLayout, h]

/-- At the end, skipping layout leaves nothing. -/
theorem skipLayout_of_atEnd {lx' : Lexer} (h : atEnd lx = .ok true lx') :
    ∃ seen p, skipLayout .none false lx.position lx.input = (.ok seen, p, []) := by
  rcases hskip : skipLayout .none false lx.position lx.input with ⟨e | seen, p, rest⟩
  · have hscan : scanLayout lx = .error e { lx with position := p, input := rest } := by
      rw [scanLayout, hskip]
    rw [atEnd, bind_eq_of_error hscan] at h
    cases h
  · rw [atEnd, bind_eq_of_ok (scanLayout_eq hskip)] at h
    rcases rest with _ | ⟨c | fault, rest⟩
    · exact ⟨seen, p, rfl⟩
    · cases h
    · cases h

/-- There is no token at the end. -/
theorem token_ne_of_atEnd {lx' lx'' : Lexer} (h : atEnd lx = .ok true lx') : token lx ≠ .ok t lx'' := by
  intro htoken
  obtain ⟨seen, p, hskip⟩ := skipLayout_of_atEnd h
  have hscan : scanLayout { lx with layoutSeen := false } = .ok seen ⟨[], p, false⟩ := scanLayout_eq hskip
  rw [token_eq, tokenAfter, bind_eq_of_ok hscan] at htoken
  cases htoken

theorem Lexes.unique {tokens' : List Token} (h : Lexes lx tokens) (h' : Lexes lx tokens') :
    tokens = tokens' := by
  induction h generalizing tokens' with
  | done hend =>
    cases h' with
    | done => rfl
    | more htoken => exact absurd htoken (token_ne_of_atEnd hend)
  | more htoken _ ih =>
    cases h' with
    | done hend => exact absurd htoken (token_ne_of_atEnd hend)
    | more htoken' hrest' =>
      obtain ⟨rfl, rfl⟩ := EStateM.Result.ok.inj (htoken.symm.trans htoken')
      rw [ih hrest']

/-- Whatever place was reached, the input gives the tokens.  The flag says whether layout came before. -/
def Lexed (b : Bool) (input : Input) (tokens : List Token) : Prop := ∀ p, Lexes ⟨input, p, b⟩ tokens

theorem lexed_nil (b : Bool) : Lexed b [] [] := fun _ => .done rfl

theorem lexed_stop (b : Bool) : Lexed b [.char '.'] [.stop] := by
  intro p
  have htoken : token ⟨[.char '.'], p, b⟩ = .ok .stop ⟨[], p.next '.', false⟩ := by
    cases b <;> rfl
  exact .more htoken (lexed_nil false _)

/-- Layout that was seen before is layout that is seen. -/
theorem skipLayout_true (around : Surrounding) (seen : Bool) (p : Position) (input : Input) :
    skipLayout around true p input = ((skipLayout around seen p input).1.map fun _ => true,
      (skipLayout around seen p input).2) := by
  fun_induction skipLayout around seen p input with
  | case1 seen p star => rfl
  | case2 around seen p hnot =>
    cases around with
    | none => rfl
    | line => rfl
    | block star => exact absurd rfl (hnot star)
  | case3 around seen p fault rest =>
    rw [skipLayout.eq_def]
    rfl
  | case4 seen p c rest ih => exact ih
  | case5 seen p c rest star ih => exact ih
  | case6 seen p c rest hlayout ih =>
    rw [skipLayout_char, if_pos hlayout]
    exact ih
  | case7 seen p rest hlayout ih =>
    rw [skipLayout_char, if_neg hlayout, if_pos rfl]
    exact ih
  | case8 seen p rest hlayout hc ih =>
    rw [skipLayout_char, if_neg hlayout, if_neg hc, if_pos rfl]
    exact ih
  | case9 seen p fault rest hlayout hc =>
    rw [skipLayout_char, if_neg hlayout, if_neg hc, if_pos rfl]
    rfl
  | case10 seen p rest hstar hfault hlayout hc =>
    rw [skipLayout_char, if_neg hlayout, if_neg hc, if_pos rfl]
    split
    · exact absurd rfl (hstar _)
    · exact absurd rfl (hfault _ _)
    · rfl
  | case11 seen p c rest hlayout hc hc' =>
    rw [skipLayout_char, if_neg hlayout, if_neg hc, if_neg hc']
    rfl

theorem skipLayout_space (p : Position) (rest : Input) : skipLayout .none false p (.char ' ' :: rest) =
    ((skipLayout .none false (p.next ' ') rest).1.map fun _ => true,
      (skipLayout .none false (p.next ' ') rest).2) := by
  rw [skipLayout_char, if_pos (by decide), skipLayout_true .none false]

theorem token_space (rest : Input) (p : Position) (b : Bool) :
    token ⟨.char ' ' :: rest, p, b⟩ = token ⟨rest, p.next ' ', true⟩ := by
  have hskip := skipLayout_space p rest
  rw [token_eq, token_eq, tokenAfter, tokenAfter]
  rcases hrest : skipLayout .none false (p.next ' ') rest with ⟨e | seen, p', rest'⟩
  · rw [hrest] at hskip
    have hscan : scanLayout ⟨.char ' ' :: rest, p, false⟩ = .error e ⟨rest', p', false⟩ := by
      rw [scanLayout, hskip]
      rfl
    have hscan' : scanLayout ⟨rest, p.next ' ', false⟩ = .error e ⟨rest', p', false⟩ := by
      rw [scanLayout, hrest]
    rw [bind_eq_of_error hscan, bind_eq_of_error hscan']
  · rw [hrest] at hskip
    rw [bind_eq_of_ok (scanLayout_eq hskip), bind_eq_of_ok (scanLayout_eq hrest), Bool.or_true,
      Bool.true_or]

/-- What comes after a space comes after layout. -/
theorem Lexed.space (h : Lexed true rest tokens) (b : Bool) : Lexed b (.char ' ' :: rest) tokens := by
  intro p
  cases h (p.next ' ') with
  | done hend =>
    obtain ⟨seen, p', hrest⟩ := skipLayout_of_atEnd hend
    have hskip := skipLayout_space p rest
    rw [hrest] at hskip
    have hatEnd : ∃ lx', atEnd ⟨.char ' ' :: rest, p, b⟩ = .ok true lx' := by
      rw [atEnd, bind_eq_of_ok (scanLayout_eq hskip)]
      exact ⟨_, rfl⟩
    obtain ⟨lx', hatEnd⟩ := hatEnd
    exact .done hatEnd
  | more htoken hrest => exact .more ((token_space rest p b).trans htoken) hrest

/-- A word is the next token, whether or not layout comes before it. -/
theorem Lexed.word (h : Lexed false rest tokens) (hcuts : Cuts input t rest)
    (ht : t ≠ .openGroup ∧ t ≠ .openArgs) (b : Bool) : Lexed b input (t :: tokens) := by
  intro p
  obtain ⟨p', htoken⟩ := hcuts p
  have hmatches : (reading []).Matches SameToken (token ⟨input, p, false⟩) (token ⟨input, p, b⟩) :=
    matches_token Input.nextLine_nil (List.append_nil input).symm
  obtain ⟨t', ⟨input', p'', b'⟩, htoken', hsame, hst⟩ := hmatches.of_ok htoken
  obtain rfl : t' = t := by
    obtain rfl | ⟨hopen, -⟩ := hsame
    · rfl
    · exact absurd hopen (not_or.mpr ht)
  obtain rfl : input' = rest := hst.input.trans (List.append_nil rest)
  obtain rfl : b' = false := hst.layoutSeen
  exact .more htoken' (h p'')

/-- A bracket or another character that is a token by itself.  Layout before an opening bracket
matters. -/
theorem Lexed.punctuation (h : Lexed false rest tokens) (hc : punctuation? c b = some t) :
    Lexed b (.char c :: rest) (t :: tokens) := by
  intro p
  obtain ⟨⟨-, -, hvariable⟩, hlayout, hline, hslash⟩ := start_of_punctuation hc
  have hskip : skipLayout .none false p (.char c :: rest) = (.ok false, p, .char c :: rest) := by
    rw [skipLayout_char, hlayout, if_neg Bool.false_ne_true, if_neg hline, if_neg hslash]
  have hlook : lookahead ⟨.char c :: rest, p, false⟩ = .ok c ⟨.char c :: rest, p, false⟩ := rfl
  have htoken : token ⟨.char c :: rest, p, b⟩ = .ok t ⟨rest, p.next c, false⟩ := by
    rw [token_eq, tokenAfter, bind_eq_of_ok (scanLayout_eq hskip), bind_eq_of_ok hlook, Bool.or_false,
      tokenFrom, hvariable, if_neg Bool.false_ne_true, hc]
    rfl
  exact .more htoken (h _)

/-! ## A space or a point after a text -/

/-- The text with one more character. -/
def followed (cs : List Char) (c : Char) : Input := cs.map .char ++ [.char c]

theorem followed_append (ws cs : List Char) (c : Char) :
    followed (ws ++ cs) c = ws.map .char ++ followed cs c := by
  rw [followed, followed, List.map_append, List.append_assoc]

/-- What a space and a point after the text give: nothing and a full stop, unless the last character is a
symbol.  Then the last name goes on with the point. -/
inductive Ending (cs : List Char) : List Token → List Token → Prop
  /-- The point is a full stop. -/
  | stop (h : ∀ c ∈ cs.getLast?, Text.isSymbol c = false) : Ending cs [] [.stop]
  /-- The point belongs to a name. -/
  | joined (name : String) (h : ∃ c ∈ cs.getLast?, Text.isSymbol c = true) :
    Ending cs [.literal (.atom name)] [.literal (.atom (name ++ "."))]

/-- The end of a text is that of its last part. -/
theorem Ending.append {last last' : List Token} (h : Ending cs last last')
    (hws : cs = [] → ∀ c ∈ ws.getLast?, Text.isSymbol c = false) : Ending (ws ++ cs) last last' := by
  rcases cs with _ | ⟨d, cs⟩
  · cases h with
    | stop =>
      rw [List.append_nil]
      exact .stop (hws rfl)
    | joined name h =>
      obtain ⟨c, hc, -⟩ := h
      cases hc
  · have hlast : (ws ++ d :: cs).getLast? = (d :: cs).getLast? := by
      simp [List.getLast?_append, List.getLast?_cons]
    cases h with
    | stop h => exact .stop (hlast ▸ h)
    | joined name h => exact .joined name (hlast ▸ h)

/-- The text gives the same tokens before a space and before a point, apart from the end. -/
def Closes (b : Bool) (cs : List Char) : Prop :=
  ∃ tokens last last', Ending cs last last' ∧ Lexed b (followed cs ' ') (tokens ++ last) ∧
    Lexed b (followed cs '.') (tokens ++ last')

/-- Within quotes, the input goes on with the name, and after the quote that closes it with the tokens. -/
def Closed (input : Input) (name : List Char) (tokens : List Token) : Prop :=
  ∃ rest, Lexed false rest tokens ∧ ∀ before p, ∃ p',
    quotedParts '\x27' before ⟨input, p, false⟩ = .ok (before.reverse ++ name) ⟨rest, p', false⟩

/-- The same within quotes. -/
def ClosesQuoted (cs : List Char) : Prop :=
  ∃ name tokens last last', Ending cs last last' ∧ Closed (followed cs ' ') name (tokens ++ last) ∧
    Closed (followed cs '.') name (tokens ++ last')

/-- A text that is lexed, before a space and before a point. -/
structure Lexical (cs : List Char) : Prop where
  /-- It gives the same tokens. -/
  closes (b : Bool) : Closes b cs
  /-- If it begins with a quote, the name between quotes can be begun before it. -/
  quoted {cs' : List Char} (h : cs = '\x27' :: cs') : ClosesQuoted cs'
  /-- It does not begin as the fraction of a number does. -/
  point {cs' : List Char} (h : cs = '.' :: cs') : ∃ d cs'', cs' = d :: cs'' ∧ Text.isDigit d = false

theorem lexical_nil : Lexical [] where
  closes b := ⟨[], [], [.stop], .stop nofun, (lexed_nil true).space b, lexed_stop b⟩
  quoted h := nomatch h
  point h := nomatch h

/-- What comes before a text gives tokens of its own. -/
theorem Closes.append {b' : Bool} (h : Closes b' cs) (front : List Token)
    (hws : cs = [] → ∀ c ∈ ws.getLast?, Text.isSymbol c = false)
    (hfront : ∀ c tokens, c = ' ' ∨ c = '.' → Lexed b' (followed cs c) tokens →
      Lexed b (followed (ws ++ cs) c) (front ++ tokens)) : Closes b (ws ++ cs) := by
  obtain ⟨tokens, last, last', hending, hspace, hpoint⟩ := h
  refine ⟨front ++ tokens, last, last', hending.append hws, ?_, ?_⟩
  · rw [List.append_assoc]
    exact hfront ' ' _ (.inl rfl) hspace
  · rw [List.append_assoc]
    exact hfront '.' _ (.inr rfl) hpoint

/-- A character that begins neither a name between quotes nor a name with a point. -/
theorem lexical_cons (hc : c ≠ '\x27' ∧ c ≠ '.') (h : ∀ b, Closes b (c :: cs)) : Lexical (c :: cs) where
  closes := h
  quoted heq := absurd (List.cons.inj heq).1 hc.1
  point heq := absurd (List.cons.inj heq).1 hc.2

theorem Lexical.space (h : Lexical cs) : Lexical (' ' :: cs) := by
  refine lexical_cons (by decide) fun b => ?_
  show Closes b ([' '] ++ cs)
  refine (h.closes true).append [] (fun _ c hc => ?_) fun c tokens _ hrest => ?_
  · cases hc
    decide
  · exact hrest.space b

/-- A bracket or another character that is a token by itself. -/
theorem Lexical.punctuation (h : Lexical cs) (hc : ∀ b, (punctuation? c b).isSome = true) :
    Lexical (c :: cs) := by
  obtain ⟨t, ht⟩ := Option.isSome_iff_exists.mp (hc false)
  obtain ⟨-, hsymbol, hquote⟩ := classes_of_punctuation ht
  have hpoint : Text.isSymbol '.' = true := by decide
  refine lexical_cons ⟨hquote, (Text.ne_of_class hpoint hsymbol).symm⟩ fun b => ?_
  obtain ⟨t, ht⟩ := Option.isSome_iff_exists.mp (hc b)
  show Closes b ([c] ++ cs)
  refine (h.closes false).append [t] (fun _ d hd => ?_) fun d tokens _ hrest => ?_
  · cases hd
    exact hsymbol
  · exact hrest.punctuation ht

/-! ## Words in front of a text -/

/-- The word ends where the text begins. -/
structure Apart (ws cs : List Char) : Prop where
  /-- The last character and the next one could not belong to one token. -/
  joins : Piece.joins ws.getLast? cs.head? = false
  /-- A zero and a quote would be a character code. -/
  zero : ws = ['0'] → cs.head? ≠ some '\x27'
  /-- A letter is a name with what continues names, even if it continues none itself. -/
  letter : ∀ {c}, ws = [c] → Text.isSmallLetter c = true → ∀ d ∈ cs.head?, Text.isAlnum d = false

/-- A word ends before a space. -/
theorem apart_space (ws cs : List Char) : Apart ws (' ' :: cs) where
  joins := by
    cases ws.getLast? with
    | none => rfl
    | some c =>
      show (Text.isAlnum c && Text.isAlnum ' ' || Text.isSymbol c && Text.isSymbol ' ') = false
      rw [show Text.isAlnum ' ' = false by decide, show Text.isSymbol ' ' = false by decide,
        Bool.and_false, Bool.and_false, Bool.or_self]
  zero := by
    intro _ heq
    cases heq
  letter := by
    rintro _ _ _ d hd
    cases hd
    decide

/-- A word that ends where a text begins ends there if a space comes after the text. -/
theorem Apart.append_space {ws cs : List Char} (h : Apart ws cs) (rest : List Char) :
    Apart ws (cs ++ ' ' :: rest) := by
  cases cs with
  | nil => exact apart_space ws rest
  | cons c cs => exact ⟨h.joins, h.zero, h.letter⟩

theorem stops_followed {q : Char → Bool} (hc : q c = false) (hcs : ∀ d ∈ cs.head?, q d = false) :
    (followed cs c).Stops q := by
  cases cs with
  | nil => exact hc
  | cons d cs => exact hcs d rfl

theorem Apart.alnum (h : Apart ws cs) (hws : ∃ c ∈ ws.getLast?, Text.isAlnum c = true) :
    ∀ d ∈ cs.head?, Text.isAlnum d = false := by
  obtain ⟨c, hc, halnum⟩ := hws
  intro d hd
  have hjoins := h.joins
  rw [Option.mem_def.mp hc, Option.mem_def.mp hd, Piece.joins, halnum, Bool.or_eq_false_iff] at hjoins
  exact hjoins.1

theorem Apart.symbol (h : Apart ws cs) (hws : ∃ c ∈ ws.getLast?, Text.isSymbol c = true) :
    ∀ d ∈ cs.head?, Text.isSymbol d = false := by
  obtain ⟨c, hc, hsymbol⟩ := hws
  intro d hd
  have hjoins := h.joins
  rw [Option.mem_def.mp hc, Option.mem_def.mp hd, Piece.joins, hsymbol, Bool.or_eq_false_iff] at hjoins
  exact hjoins.2

/-- A word in front of a text, which has to be there if the word ends in a symbol. -/
theorem Closes.word (h : Closes false cs) (hws : cs = [] → ∀ c ∈ ws.getLast?, Text.isSymbol c = false)
    (hcuts : ∀ c, c = ' ' ∨ c = '.' → Cuts (ws.map .char ++ followed cs c) t (followed cs c))
    (ht : t ≠ .openGroup ∧ t ≠ .openArgs) (b : Bool) : Closes b (ws ++ cs) := by
  refine h.append [t] hws fun c tokens hc hrest => ?_
  rw [followed_append]
  exact hrest.word (hcuts c hc) ht b

/-- The last of characters of a class is of the class. -/
theorem getLast?_of_all {q : Char → Bool} (hcs : (c :: cs).all q = true) :
    ∃ d ∈ (c :: cs).getLast?, q d = true := by
  refine ⟨(c :: cs).getLast (List.cons_ne_nil c cs), List.getLast?_eq_some_getLast _, ?_⟩
  exact List.all_eq_true.mp hcs _ (List.getLast_mem _)

/-- Nothing goes on with a name of letters and digits. -/
theorem Apart.smallName (h : Apart (c :: ws) cs) (hc : Text.isSmallLetter c = true)
    (hws : ws.all Text.isAlnum = true) : ∀ d ∈ cs.head?, Text.isAlnum d = false := by
  cases ws with
  | nil => exact h.letter rfl hc
  | cons e ws =>
    refine h.alnum ?_
    rw [List.getLast?_cons_cons]
    exact getLast?_of_all hws

/-- Nothing goes on with a name of symbols. -/
theorem Apart.symbolicName (h : Apart (c :: ws) cs) (hc : Text.isSymbol c = true)
    (hws : Text.isSymbolicName c ws = true) : ∀ d ∈ cs.head?, Text.isSymbol d = false := by
  refine h.symbol (getLast?_of_all ?_)
  rw [List.all_cons, hc, (Text.isSymbolicName_cases hws).1, Bool.and_self]

/-- A name of letters and digits. -/
theorem Lexical.small (h : Lexical cs) (hc : Text.isSmallLetter c = true)
    (hws : ws.all Text.isAlnum = true) (hapart : Apart (c :: ws) cs) : Lexical (c :: ws ++ cs) := by
  have hne : ∀ e, Text.isSmallLetter e = false → c ≠ e := fun _ => Text.ne_of_class hc
  have hends := hapart.smallName hc hws
  have hlast : ∀ d ∈ (c :: ws).getLast?, Text.isSymbol d = false := by
    intro d hd
    rcases List.mem_cons.mp (List.mem_of_getLast? hd) with rfl | hmem
    · exact Bool.eq_false_iff.mpr fun hsymbol => hne d (Text.classes_of_isSymbol hsymbol).1 rfl
    · exact Text.isSymbol_of_isAlnum (List.all_eq_true.mp hws d hmem)
  refine lexical_cons ⟨hne _ (by decide), hne _ (by decide)⟩ ?_
  refine (h.closes false).word (fun _ => hlast)
    (fun d hd => cuts_smallName hc hws (stops_followed ?_ hends)) ⟨nofun, nofun⟩
  obtain rfl | rfl := hd <;> decide

/-- A variable. -/
theorem Lexical.variable (h : Lexical cs) (hc : Text.isVariableStart c = true)
    (hws : (c :: ws).all Text.isAlnum = true) (hapart : Apart (c :: ws) cs) : Lexical (c :: ws ++ cs) := by
  have hends := hapart.alnum (getLast?_of_all hws)
  have hlast : ∀ d ∈ (c :: ws).getLast?, Text.isSymbol d = false := by
    intro d hd
    exact Text.isSymbol_of_isAlnum (List.all_eq_true.mp hws d (List.mem_of_getLast? hd))
  have hne : ∀ e, Text.isVariableStart e = false → c ≠ e := fun _ => Text.ne_of_class hc
  refine lexical_cons ⟨hne _ (by decide), hne _ (by decide)⟩ ?_
  refine (h.closes false).word (fun _ => hlast)
    (fun d hd => cuts_variable hc hws (stops_followed ?_ hends)) ⟨nofun, nofun⟩
  obtain rfl | rfl := hd <;> decide

/-- After a name of symbols a space ends it, and a point goes on with it. -/
theorem closes_symbolic (hc : Text.isSymbol c = true) (hws : Text.isSymbolicName c ws = true) (b : Bool) :
    Closes b (c :: ws) := by
  have hall := (Text.isSymbolicName_cases hws).1
  have hlast : ∃ d ∈ (c :: ws).getLast?, Text.isSymbol d = true :=
    getLast?_of_all (by rw [List.all_cons, hc, hall, Bool.and_self])
  have hspace : Cuts (followed (c :: ws) ' ') (.literal (.atom (String.ofList (c :: ws)))) [.char ' '] :=
    cuts_symbolicName hc hws (by decide : Text.isSymbol ' ' = false)
  have hpoint : Cuts (followed (c :: ws) '.') (.literal (.atom (String.ofList (c :: ws) ++ "."))) [] := by
    have hnil : Input.Stops Text.isSymbol [] := trivial
    have hcuts := cuts_symbolicName hc (Text.isSymbolicName_point hws) hnil
    have htext : String.ofList (c :: (ws ++ ['.'])) = String.ofList (c :: ws) ++ "." := by
      rw [← List.cons_append, String.ofList_append]
    rwa [htext, List.append_nil, ← List.cons_append, List.map_append] at hcuts
  refine ⟨[], _, _, .joined (String.ofList (c :: ws)) hlast, ?_, ?_⟩
  · exact ((lexed_nil true).space false).word hspace ⟨nofun, nofun⟩ b
  · exact (lexed_nil false).word hpoint ⟨nofun, nofun⟩ b

/-- A name of symbols. -/
theorem Lexical.symbolic (h : Lexical cs) (hc : Text.isSymbol c = true)
    (hws : Text.isSymbolicName c ws = true) (hapart : Apart (c :: ws) cs) : Lexical (c :: ws ++ cs) := by
  obtain ⟨hall, hpoint, -⟩ := Text.isSymbolicName_cases hws
  have hends := hapart.symbolicName hc hws
  constructor
  · intro b
    rcases cs with _ | ⟨d, cs⟩
    · rw [List.append_nil]
      exact closes_symbolic hc hws b
    · exact (h.closes false).word (fun heq => nomatch heq)
        (fun e _ => cuts_symbolicName hc hws (hends d rfl)) ⟨nofun, nofun⟩ b
  · rintro cs' heq
    obtain rfl := (List.cons.inj heq).1
    exact absurd hc (by decide)
  · rintro cs' heq
    obtain ⟨rfl, rfl⟩ := List.cons.inj heq
    rcases ws with _ | ⟨d, ws⟩
    · exact absurd rfl (hpoint rfl)
    · rw [List.all_cons, Bool.and_eq_true] at hall
      exact ⟨d, ws ++ cs, rfl, (Text.classes_of_isSymbol hall.1).2.1⟩

/-- A character that is a name by itself. -/
theorem Lexical.solo (h : Lexical cs) (hc : c = '!' ∨ c = ';') : Lexical (c :: cs) := by
  have hclasses : c ≠ '\x27' ∧ c ≠ '.' ∧ Text.isSymbol c = false := by
    obtain rfl | rfl := hc <;> decide
  refine lexical_cons ⟨hclasses.1, hclasses.2.1⟩ fun b => ?_
  have hcuts : ∀ d, Cuts ([c].map .char ++ followed cs d) (.literal (.atom (String.ofList [c])))
      (followed cs d) :=
    fun _ => cuts_soloName hc
  refine (h.closes false).word (fun _ d hd => ?_) (fun d _ => hcuts d) ⟨nofun, nofun⟩ b
  cases hd
  exact hclasses.2.2

/-- What follows a number ends it. -/
theorem Lexical.endsNumber (h : Lexical cs) (hapart : Apart ws cs)
    (hws : ∃ d ∈ ws.getLast?, Text.isAlnum d = true) (hc : c = ' ' ∨ c = '.') :
    EndsNumber ws (followed cs c) where
  alnum := by
    refine stops_followed ?_ (hapart.alnum hws)
    obtain rfl | rfl := hc <;> decide
  point := by
    intro more heq
    rcases cs with _ | ⟨d, cs⟩
    · obtain ⟨-, rfl⟩ := List.cons.inj heq
      trivial
    · obtain ⟨hd, rfl⟩ := List.cons.inj heq
      obtain rfl := Item.char.inj hd
      obtain ⟨d, cs, rfl, hd⟩ := h.point rfl
      exact hd
  quote := by
    intro hzero
    refine stops_followed ?_ fun d hd => decide_eq_false ?_
    · obtain rfl | rfl := hc <;> decide
    · rintro rfl
      exact hapart.zero hzero hd

/-- A number. -/
theorem Lexical.number {l : Literal} (h : Lexical cs) (hd : Text.isDigit d = true)
    (hws : ∃ e ∈ (d :: ws).getLast?, Text.isAlnum e = true)
    (hcuts : ∀ rest, EndsNumber (d :: ws) rest → Cuts ((d :: ws).map .char ++ rest) (.literal l) rest)
    (hapart : Apart (d :: ws) cs) : Lexical (d :: ws ++ cs) := by
  have hdigits : ∀ e ∈ Text.digits, e ≠ '\x27' ∧ e ≠ '.' := List.all_iff_forall_prop.mp (by decide)
  have hlast : ∀ e ∈ (d :: ws).getLast?, Text.isSymbol e = false := by
    obtain ⟨e, he, halnum⟩ := hws
    intro e' he'
    exact Option.mem_unique he he' ▸ Text.isSymbol_of_isAlnum halnum
  refine lexical_cons (hdigits d (Text.mem_of_isDigit hd)) ?_
  exact (h.closes false).word (fun _ => hlast)
    (fun e he => hcuts _ (h.endsNumber hapart hws he)) ⟨nofun, nofun⟩

/-! ## Names between quotes -/

/-- The characters of a name between quotes come before what goes on with the name. -/
theorem Closed.chars {name : List Char} (h : Closed input name tokens) (cs : List Char) :
    Closed ((cs.flatMap fun c => (Text.quotedChar c).toList).map .char ++ input) (cs ++ name) tokens := by
  obtain ⟨rest, hrest, hparts⟩ := h
  refine ⟨rest, hrest, fun before p => ?_⟩
  obtain ⟨p₁, hchars⟩ := quotedParts_quotedChars .standard cs before input p false
  obtain ⟨p', hclose⟩ := hparts (cs.reverse ++ before) p₁
  refine ⟨p', ?_⟩
  rw [Text.Tables.quotedChar_standard] at hchars
  rw [hchars, hclose, List.reverse_append, List.reverse_reverse, List.append_assoc]

/-- A quote closes the name if no other one follows. -/
theorem closed_close (h : Lexed false rest tokens) (hrest : rest.Stops (· = '\x27')) :
    Closed (.char '\x27' :: rest) [] tokens := by
  refine ⟨rest, h, fun before p => ⟨p.next '\x27', ?_⟩⟩
  rw [quotedParts_close before hrest, List.append_nil]

/-- Two quotes are one within the name. -/
theorem Closed.doubled {name : List Char} (h : Closed input name tokens) :
    Closed (.char '\x27' :: .char '\x27' :: input) ('\x27' :: name) tokens := by
  obtain ⟨rest, hrest, hparts⟩ := h
  refine ⟨rest, hrest, fun before p => ?_⟩
  obtain ⟨p', hclose⟩ := hparts ('\x27' :: before) ((p.next '\x27').next '\x27')
  refine ⟨p', ?_⟩
  rw [quotedParts_doubled, hclose, List.reverse_cons, List.append_assoc, List.singleton_append]

/-- A quote begins the name. -/
theorem Closed.lexed {name : List Char} (h : Closed input name tokens) (b : Bool) :
    Lexed b (.char '\x27' :: input) (.literal (.atom (String.ofList name)) :: tokens) := by
  obtain ⟨rest, hrest, hparts⟩ := h
  have hcuts : Cuts (.char '\x27' :: input) (.literal (.atom (String.ofList name))) rest := by
    refine cuts_of_tokenFrom (by decide) (by decide) (fun h => absurd h (by decide)) ?_
    intro p
    obtain ⟨p', hclose⟩ := hparts [] (p.next '\x27')
    exact ⟨p', bind_eq_of_ok (m := quotedText '\x27') (map_eq_of_ok (f := String.ofList) hclose)⟩
  exact hrest.word hcuts ⟨nofun, nofun⟩ b

/-- The quote that ends a name, in front of a text.  If the text begins with a quote, the name goes on
after it. -/
theorem Lexical.closing (h : Lexical cs) : ClosesQuoted ('\x27' :: cs) := by
  by_cases hquote : ∃ cs', cs = '\x27' :: cs'
  · obtain ⟨cs', rfl⟩ := hquote
    obtain ⟨name, tokens, last, last', hending, hspace, hpoint⟩ := h.quoted rfl
    have hending' : Ending (['\x27', '\x27'] ++ cs') last last' := by
      refine hending.append fun _ c hc => ?_
      cases hc
      decide
    exact ⟨'\x27' :: name, tokens, last, last', hending', hspace.doubled, hpoint.doubled⟩
  · obtain ⟨tokens, last, last', hending, hspace, hpoint⟩ := h.closes false
    have hending' : Ending (['\x27'] ++ cs) last last' := by
      refine hending.append fun _ c hc => ?_
      cases hc
      decide
    have hends : ∀ d ∈ cs.head?, decide (d = '\x27') = false := by
      intro d hd
      refine decide_eq_false ?_
      rintro rfl
      exact hquote (List.head?_eq_some_iff.mp hd)
    refine ⟨[], tokens, last, last', hending', ?_, ?_⟩
    · exact closed_close hspace (stops_followed (by decide) hends)
    · exact closed_close hpoint (stops_followed (by decide) hends)

/-- A name between quotes. -/
theorem Lexical.quotedName (h : Lexical cs) (name : List Char) : Lexical
    ('\x27' :: (name.flatMap fun c => (Text.quotedChar c).toList) ++ ['\x27'] ++ cs) := by
  obtain ⟨name', tokens, last, last', hending, hspace, hpoint⟩ := h.closing
  have htext : ('\x27' :: (name.flatMap fun c => (Text.quotedChar c).toList) ++ ['\x27'] ++ cs) =
      ['\x27'] ++ ((name.flatMap fun c => (Text.quotedChar c).toList) ++ '\x27' :: cs) := by
    simp
  have hquoted : ClosesQuoted ((name.flatMap fun c => (Text.quotedChar c).toList) ++ '\x27' :: cs) := by
    refine ⟨name ++ name', tokens, last, last', hending.append (fun heq => nomatch heq), ?_, ?_⟩
    · rw [followed_append]
      exact hspace.chars name
    · rw [followed_append]
      exact hpoint.chars name
  rw [htext]
  refine ⟨fun b => ?_, fun heq => ?_, fun heq => nomatch heq⟩
  · obtain ⟨name', tokens, last, last', hending, hspace, hpoint⟩ := hquoted
    refine ⟨_ :: tokens, last, last', hending.append fun heq => ?_, hspace.lexed b, hpoint.lexed b⟩
    exact absurd heq (List.append_ne_nil_of_right_ne_nil _ (List.cons_ne_nil _ cs))
  · obtain rfl := (List.cons.inj heq).2
    exact hquoted

end Clausal.Lexer

import Clausal.Proofs.Store.Denotation
import Clausal.Proofs.Syntax.Numerals

/-! # Names read back as constants

What is written of a name, with a space and a point after it, is read as the constant of that name.  This
holds of every name, also of an operator: where a full stop follows it, an operator has no operand, and
so it is one itself (`Reading.read_of_spells`).

The writer and the lexer have to agree on which characters are letters, not on which characters those
are.  So the tokens of the text are the same under any tables of characters that know their ASCII, and the
tokens are all that a reader sees of the text (`TermReader.reads_quotedName`).
-/

namespace Clausal

namespace Lexer

/-- The text of a name is cut into the tokens that spell it. -/
theorem cutsUnder_written {u : Text.Tables} (hu : u.Usual) (name : String) :
    CutsAllUnder u (.ofText (u.quotedName name ++ " .")) (Token.spelling name ++ [.stop]) [] := by
  have hinput : Input.ofText (u.quotedName name ++ " .") =
      (u.quotedName name).toList.map .char ++ [.char ' ', .char '.'] := by
    rw [Input.ofText, String.toList_append, List.map_append]
    rfl
  have hends := endsName_closing u (u.quotedName name).toList (d := ' ') (by decide) [.char '.']
  rw [hinput]
  exact (cutsUnder_quotedName hu name hends).append (cutsUnder_stop hu).all

end Lexer

namespace Reading

open TermReader (Gives)

variable {reader final : TermReader} {tokens : List Token} {name : String}

/-- The tokens of a name and a full stop are the constant. -/
theorem read_of_spells (ops : OperatorTable) (hname : Spells tokens name)
    (h : Gives (tokens ++ [.stop]) final reader) (s : Store) :
    reader.read ops s = (.ok (s.atom name).1, final, (s.atom name).2) := by
  obtain ⟨reader₁, h₁, hbegin⟩ := beginOperand_spells ops hname h
  obtain ⟨reader₂, h₂, hdetached⟩ := nameOperand_detached ops (Token.detached_mark (by simp) name) h₁
  have hstarts : ∀ op, ops.find? name .before = some op → op.priority ≤ 1200 →
      ops.starts .stop = false := fun _ _ _ => rfl
  obtain ⟨reader₃, h₃, hatom⟩ := operatorOrName_atom h₂ hstarts
  obtain ⟨reader₄, hstop, -, htakes, -⟩ := h₃.head
  cases htakes
  have hoperand := (hbegin s [] [.expression 1200]).trans ((hdetached _ _ _).trans (hatom s [] []))
  exact read_of_operand ops hoperand hstop

end Reading

namespace TermReader

/-- **Every name is read back from what is written of it**, whatever the operators: the reader gives the
constant of that name and is at its end.  The same holds under any tables of characters that know their
ASCII: what the writer makes of the name under them is cut under them into tokens, and a reader to which
these tokens come gives the constant. -/
theorem reads_quotedName (name : String) (ops : OperatorTable) (quotes : DoubleQuotes) (s : Store) :
    (∃ reader, (TermReader.ofInput (.ofText (Text.quotedName name ++ " .")) quotes).read ops s =
      (.ok (s.atom name).1, reader, (s.atom name).2) ∧ reader.atEnd.1 = .ok true) ∧
    (s.atom name).2.snapshot (s.atom name).1 = .atom name ∧
    ∀ u : Text.Tables, u.Usual → ∃ tokens,
      Lexer.CutsAllUnder u (.ofText (u.quotedName name ++ " .")) (tokens ++ [.stop]) [] ∧
        ∀ final reader, Gives (tokens ++ [.stop]) final reader →
          reader.read ops s = (.ok (s.atom name).1, final, (s.atom name).2) := by
  refine ⟨?_, Store.snapshot_of_literal (Store.cell?_push_self s _), ?_⟩
  · have hcuts := Lexer.cutsUnder_written Text.Tables.usual_standard name
    rw [Text.Tables.quotedName_standard] at hcuts
    obtain ⟨p, htakes⟩ := takes_of_cutsAll hcuts.cutsAll quotes {}
    exact ⟨_, Reading.read_of_spells ops (Token.spells_spelling name) ⟨htakes, rfl⟩ s, rfl⟩
  · intro u hu
    refine ⟨_, Lexer.cutsUnder_written hu name, fun final reader h => ?_⟩
    exact Reading.read_of_spells ops (Token.spells_spelling name) h s

/-- Where only ASCII has letters, a name that begins with another letter is written between quotes. -/
theorem reads_quotedName_accent :
    let u : Text.Tables :=
      { Text.Tables.standard with alphabetic := fun c => Text.isAlphabetic c && c.toNat < 0x80 }
    u.Usual ∧ Text.quotedName "\u00e9t\u00e9" = "\u00e9t\u00e9" ∧
      u.quotedName "\u00e9t\u00e9" = "'\u00e9t\u00e9'" ∧ ∃ tokens,
        Lexer.CutsAllUnder u (.ofText "'\u00e9t\u00e9' .") (tokens ++ [.stop]) [] ∧
          ∀ final reader, Gives (tokens ++ [.stop]) final reader → reader.read .standard {} =
            (.ok (({} : Store).atom "\u00e9t\u00e9").1, final, (({} : Store).atom "\u00e9t\u00e9").2) := by
  intro u
  have hu : u.Usual := by
    intro c hc
    refine ⟨?_, rfl, rfl, rfl, rfl⟩
    show (Text.isAlphabetic c && decide (c.toNat < 0x80)) = Text.isAlphabetic c
    rw [decide_eq_true hc, Bool.and_true]
  have hquoted : u.quotedName "\u00e9t\u00e9" = "'\u00e9t\u00e9'" := by decide +kernel
  have hreads := (reads_quotedName "\u00e9t\u00e9" .standard .chars {}).2.2 u hu
  rw [hquoted] at hreads
  exact ⟨hu, by decide +kernel, hquoted, hreads⟩

end TermReader

end Clausal

import ByteGrammar.Grammar.Parse
import ByteGrammar.Proofs.Parser.Derived

namespace ByteGrammar.Grammar

variable {ρ : Type} (rules : ρ → Grammar ρ) (rounds : Nat)
  (part : Grammar ρ → Parser (Note ρ) Value)

-- What some layers mean in terms of a sequence of their parts

theorem layer_both (first second : Grammar ρ) :
    layer rules rounds part (both first second) =
      (Parser.sequence ([first, second].map part)).map .tuple := by
  rw [List.map_cons, List.map_singleton, ← Parser.both_map, Parser.map_map]
  rfl

theorem layer_between (opening body closing : Grammar ρ) :
    layer rules rounds part (between opening body closing) =
      (Parser.sequence ([opening, body, closing].map part)).map fun values => values.getD 1 .unit :=
  Parser.between_eq_sequence (part opening) (part body) (part closing) .unit

end ByteGrammar.Grammar

import ByteGrammar.Parser.Successive
import ByteGrammar.Proofs.FoldMeaning
import Mathlib.Data.List.Forall2

namespace ByteGrammar.Parser

variable {ν α : Type}

theorem successive_eq_of_last {parser : Parser ν α} {input : Bytes}
    (h : ∀ value tail, ¬ (parser input).Gives (.ok (.matched value tail))) (limit : Nat) :
    successive parser (limit + 1) input = [parser input] := by
  unfold successive
  dsimp only
  split
  · next own value tail hrun => exact absurd ⟨own, hrun⟩ (h value tail)
  · rfl

-- Successive parses show the rounds of a parser, each with its own run, and the one that stops
-- them. They may be broken off before that.
theorem exists_runs_of_rounds {parser : Parser ν α} {input tail : Bytes} {values : List α}
    (h : Rounds parser input values tail)
    (hlast : ∀ value rest, ¬ (parser tail).Gives (.ok (.matched value rest))) :
    ∃ runs, List.Forall₂ (fun run value => ∃ rest, run.Gives (.ok (.matched value rest))) runs
        values ∧
      ∀ limit, successive parser limit input = (runs ++ [parser tail]).take limit := by
  induction h with
  | none input =>
    refine ⟨[], .nil, fun limit => ?_⟩
    cases limit with
    | zero => rfl
    | succ limit => rw [successive_eq_of_last hlast, List.take_of_length_le] <;> simp
  | next input value rest values tail hmatch hrest ih =>
    obtain ⟨runs, hruns, hlimit⟩ := ih hlast
    refine ⟨parser input :: runs, .cons ⟨rest, hmatch⟩ hruns, fun limit => ?_⟩
    obtain ⟨own, hmatch⟩ := hmatch
    cases limit with
    | zero => rfl
    | succ limit => simp [successive, hmatch, hlimit]

end ByteGrammar.Parser

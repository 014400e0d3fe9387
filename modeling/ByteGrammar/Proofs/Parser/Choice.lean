import ByteGrammar.Parser.Basic
import Mathlib.Data.List.Forall2

namespace ByteGrammar.Parser

variable {ν α γ : Type}

-- What a choice leaves is what its first arms leave on the input of the choice, in order
theorem choice_trace {arms : List γ} {part : γ → Parser ν α} {input : Bytes}
    {trace : List (Event ν)} {result : Except Error (Outcome α)}
    (h : choice (arms.map part) input = .ended trace result) :
    ∃ tried untried runs, arms = tried ++ untried ∧ trace = runs.flatten ∧
      List.Forall₂ (fun arm run => ∃ outcome, part arm input = .ended run outcome) tried runs := by
  induction arms generalizing trace result with
  | nil =>
    cases h
    exact ⟨[], [], [], rfl, rfl, .nil⟩
  | cons arm rest ih =>
    rcases Run.bind_eq_ended h with ⟨error, hfirst, -⟩ | ⟨first, later, outcome, hfirst, hnext, rfl⟩
    · exact ⟨[arm], rest, [trace], rfl, by simp, .cons ⟨_, hfirst⟩ .nil⟩
    · cases outcome with
      | matched value tail =>
        cases hnext
        exact ⟨[arm], rest, [first], rfl, by simp, .cons ⟨_, hfirst⟩ .nil⟩
      | noMatch =>
        obtain ⟨tried, untried, runs, rfl, rfl, hruns⟩ := ih hnext
        exact ⟨arm :: tried, untried, first :: runs, rfl, rfl, .cons ⟨_, hfirst⟩ hruns⟩

theorem orElse_never (parser : Parser ν α) : parser.orElse never = parser := by
  funext input
  simp only [orElse, never]
  cases parser input with
  | unfinished => rfl
  | ended trace result =>
    match result with
    | .error error => rfl
    | .ok (.matched value tail) => simp
    | .ok .noMatch => simp

theorem never_orElse (parser : Parser ν α) : never.orElse parser = parser := by
  funext input
  exact Run.after_nil (parser input)

theorem orElse_assoc (first second third : Parser ν α) :
    (first.orElse second).orElse third = first.orElse (second.orElse third) := by
  funext input
  simp only [orElse, bind_assoc]
  congr 1
  funext outcome
  cases outcome with
  | matched value tail => simp
  | noMatch => rfl

theorem choice_append (first second : List (Parser ν α)) :
    choice (first ++ second) = (choice first).orElse (choice second) := by
  induction first with
  | nil => exact (never_orElse (choice second)).symm
  | cons arm rest ih => rw [List.cons_append, choice, ih, choice, orElse_assoc]

-- Arms none of which matches on an input, with what each of them traces there
def PassedOver (arms : List (Parser ν α)) (input : Bytes) (runs : List (List (Event ν))) : Prop :=
  List.Forall₂ (fun arm own => arm input = .ended own (.ok .noMatch)) arms runs

-- How an ordered choice ends. All of its arms are passed over, or one of them decides, and those
-- that come after it have no part in it.
inductive Decides (input : Bytes) :
    List (Parser ν α) → List (Event ν) → Except Error (Outcome α) → Prop
  | nothing (arms : List (Parser ν α)) (runs : List (List (Event ν)))
      (hpassed : PassedOver arms input runs) : Decides input arms runs.flatten (.ok .noMatch)
  | arm (before : List (Parser ν α)) (arm : Parser ν α) (after : List (Parser ν α))
      (runs : List (List (Event ν))) (own : List (Event ν)) (result : Except Error (Outcome α))
      (hpassed : PassedOver before input runs) (hrun : arm input = .ended own result)
      (hresult : result ≠ .ok .noMatch) :
      Decides input (before ++ arm :: after) (runs.flatten ++ own) result

theorem PassedOver.choice_eq {arms : List (Parser ν α)} {input : Bytes}
    {runs : List (List (Event ν))} (h : PassedOver arms input runs) :
    choice arms input = .ended runs.flatten (.ok .noMatch) := by
  induction h with
  | nil => rfl
  | @cons arm own rest runs hrun hrest ih => simp [choice, orElse, hrun, ih]

theorem PassedOver.choice_append_eq {before : List (Parser ν α)} {input : Bytes}
    {runs : List (List (Event ν))} (h : PassedOver before input runs)
    (after : List (Parser ν α)) :
    choice (before ++ after) input = (choice after input).after runs.flatten := by
  rw [choice_append, orElse, h.choice_eq, Run.ok_bind]

-- An arm that does not let the next one have the input decides
theorem choice_cons_eq {arm : Parser ν α} {input : Bytes} {own : List (Event ν)}
    {result : Except Error (Outcome α)} (hrun : arm input = .ended own result)
    (hresult : result ≠ .ok .noMatch) (after : List (Parser ν α)) :
    choice (arm :: after) input = .ended own result := by
  match result with
  | .error error => simp [choice, orElse, hrun]
  | .ok (.matched value tail) => simp [choice, orElse, hrun]
  | .ok .noMatch => exact absurd rfl hresult

theorem choice_eq_ended_iff {arms : List (Parser ν α)} {input : Bytes} {trace : List (Event ν)}
    {result : Except Error (Outcome α)} :
    choice arms input = .ended trace result ↔ Decides input arms trace result := by
  constructor
  · intro h
    induction arms generalizing trace with
    | nil =>
      cases h
      exact .nothing [] [] .nil
    | cons arm rest ih =>
      rcases Run.bind_eq_ended h with ⟨error, hrun, rfl⟩ | ⟨own, later, outcome, hrun, hnext, rfl⟩
      · exact .arm [] arm rest [] trace _ .nil hrun nofun
      cases outcome with
      | matched value tail =>
        cases hnext
        rw [List.append_nil]
        exact .arm [] arm rest [] own _ .nil hrun nofun
      | noMatch =>
        cases ih hnext with
        | nothing _ runs hpassed => exact .nothing (arm :: rest) (own :: runs) (.cons hrun hpassed)
        | arm before decisive after runs last _ hpassed hlast hresult =>
          rw [← List.append_assoc]
          exact .arm (arm :: before) decisive after (own :: runs) last _ (.cons hrun hpassed) hlast
            hresult
  · intro h
    cases h with
    | nothing _ runs hpassed => exact hpassed.choice_eq
    | arm before decisive after runs own _ hpassed hrun hresult =>
      rw [hpassed.choice_append_eq, choice_cons_eq hrun hresult, Run.after_ended]

end ByteGrammar.Parser

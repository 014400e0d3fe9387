import ByteGrammar.Proofs.Trace.Grammar
import Mathlib.Data.List.Basic

namespace ByteGrammar.Grammar

variable {ρ : Type} {rules : ρ → Grammar ρ}

-- Nothing has failed in what goes on, and what ends with an error has failed at its end
def raiseLaw (rules : ρ → Grammar ρ) : TraceLaw rules where
  place _ := True
  calm trace := ∀ event ∈ trace, event.Calm
  final error trace := ∃ earlier raise,
    trace = earlier ++ raise ∧ (∀ event ∈ earlier, event.Calm) ∧ Event.Raise raise error
  place_suffix _ _ := trivial
  calm_nil := by simp
  calm_append hfirst hsecond := List.forall_mem_append.mpr ⟨hfirst, hsecond⟩
  final_append := by
    rintro first second error hfirst ⟨earlier, raise, rfl, hearlier, hraise⟩
    exact ⟨first ++ earlier, raise, (List.append_assoc ..).symm,
      List.forall_mem_append.mpr ⟨hfirst, hearlier⟩, hraise⟩
  calm_event hcalm _ := List.forall_mem_singleton.mpr hcalm
  final_raise hraise := ⟨[], _, rfl, by simp, hraise⟩
  calm_enter _ _ hinside := List.forall_mem_cons.mpr ⟨rfl, hinside⟩
  final_enter := by
    rintro depth grammar input inside error - - ⟨earlier, raise, rfl, hearlier, hraise⟩
    exact ⟨_ :: earlier, raise, rfl, List.forall_mem_cons.mpr ⟨rfl, hearlier⟩, hraise⟩

theorem parser_obeys_raiseLaw (rules : ρ → Grammar ρ) (depth : Nat) (grammar : Grammar ρ)
    (input : Bytes) :
    (parser rules depth grammar input).Obeys (raiseLaw rules)
      (Outcome.LeavesIn fun _ => True) :=
  parser_obeys (raiseLaw rules) depth grammar (fun _ _ _ _ _ _ _ => trivial) input trivial

-- Of a trace that is calm up to a raise, the call of that raise is all that has failed
theorem split_at_failure {earlier raise before after : List (Event (Note ρ))}
    {call : Event (Note ρ)} {last error : Error} (hcalm : ∀ event ∈ earlier, event.Calm)
    (hraise : Event.Raise raise last) (hsplit : earlier ++ raise = before ++ call :: after)
    (hcall : call.failure? = some error) :
    before = earlier ∧ call :: after = raise := by
  obtain ⟨first, own, _, -, hown⟩ := hraise
  have hearlier : call ∉ earlier := fun hmem =>
    Event.not_calm_of_failure? hcall (hcalm call hmem)
  have hown : call ∉ own ++ [.raised last] := by
    intro hmem
    rw [hown.failure?_eq_none hmem] at hcall
    cases hcall
  obtain ⟨rfl, rfl, rfl⟩ := (List.append_cons_inj_of_notMem hearlier hown).mp hsplit
  exact ⟨rfl, rfl⟩

theorem exists_failed_call {depth : Nat} {grammar : Grammar ρ} {input : Bytes}
    {trace : List (Event (Note ρ))} {error : Error}
    (h : parser rules depth grammar input = .ended trace (.error error)) :
    ∃ call ∈ trace, call.failure? = some error := by
  have hobeys := parser_obeys_raiseLaw rules depth grammar input
  rw [h] at hobeys
  obtain ⟨earlier, _, rfl, -, call, own, _, hfails, -⟩ := hobeys
  exact ⟨call, by simp, hfails⟩

-- What follows a call that fails is its own end, and its error is that of the parse
theorem eq_of_failed_call {depth : Nat} {grammar : Grammar ρ} {input : Bytes}
    {earlier later : List (Event (Note ρ))} {call : Event (Note ρ)} {error : Error}
    {result : Except Error (Outcome Value)}
    (h : parser rules depth grammar input = .ended (earlier ++ call :: later) result)
    (hcall : call.failure? = some error) :
    result = .error error ∧ Event.Raise (call :: later) error := by
  have hobeys := parser_obeys_raiseLaw rules depth grammar input
  rw [h] at hobeys
  cases result with
  | ok outcome => exact absurd (hobeys.1 call (by simp)) (Event.not_calm_of_failure? hcall)
  | error last =>
    obtain ⟨calm, raise, hsplit, hcalm, hraise⟩ := hobeys
    obtain ⟨rfl, hrest⟩ := split_at_failure hcalm hraise hsplit.symm hcall
    obtain ⟨first, own, _, hfails, hown⟩ := hraise
    obtain ⟨rfl, rfl⟩ := List.cons.inj hrest
    obtain rfl : error = last := Option.some.inj (hcall.symm.trans hfails)
    exact ⟨rfl, .intro call own error hcall hown⟩

-- No combinator recovers from an error. Where no call of the user's code has failed, the
-- parse has an outcome. A call that has failed is the only one: its error is the error of
-- the whole parse, and it is the last of the parse that leaves a trace.
theorem failed_call_ends_parse {depth : Nat} {grammar : Grammar ρ} {input : Bytes}
    {trace : List (Event (Note ρ))} {result : Except Error (Outcome Value)}
    (h : parser rules depth grammar input = .ended trace result) :
    ((∀ event ∈ trace, event.failure? = none) → ∃ outcome, result = .ok outcome) ∧
    ∀ earlier call later error, trace = earlier ++ call :: later → call.failure? = some error →
      result = .error error ∧ (∀ event ∈ earlier ++ later, event.failure? = none) ∧
      ∃ own, Event.Leaves call own ∧ later = own ++ [.raised error] := by
  have hobeys := parser_obeys_raiseLaw rules depth grammar input
  rw [h] at hobeys
  cases result with
  | ok outcome =>
    refine ⟨fun _ => ⟨outcome, rfl⟩, ?_⟩
    rintro earlier call later error rfl hcall
    have hcalm : call.Calm := hobeys.1 call (by simp)
    exact absurd hcalm (Event.not_calm_of_failure? hcall)
  | error last =>
    obtain ⟨calm, raise, rfl, hcalm, hraise⟩ := hobeys
    constructor
    · intro hnone
      obtain ⟨call, own, _, hfails, -⟩ := hraise
      rw [hnone call (by simp)] at hfails
      cases hfails
    · intro earlier call later error hsplit hcall
      obtain ⟨rfl, hrest⟩ := split_at_failure hcalm hraise hsplit hcall
      obtain ⟨call, own, _, hfails, hown⟩ := hraise
      obtain ⟨rfl, rfl⟩ := List.cons.inj hrest
      obtain rfl : error = last := Option.some.inj (hcall.symm.trans hfails)
      refine ⟨rfl, ?_, own, hown, rfl⟩
      intro event hevent
      rcases List.mem_append.mp hevent with hevent | hevent
      · exact (hcalm event hevent).failure?_eq_none
      · exact hown.failure?_eq_none hevent

def refused : Error := .custom "refused" []

-- Parentheses around a byte, where every byte is refused
def refusing : Unit → Grammar Unit := fun _ =>
  .choice [.between (.byte 40) (.rule ()) (.byte 41),
    .refine "check" (fun _ => .error refused) .anyByte]

def refusingAhead : Grammar Unit :=
  .optional (.notFollowedBy (.many .heap (.notFollowedBy (.rule ()))))

-- The byte is refused in a rule within a rule, in the second arms of choices, and ahead of
-- a repetition that is itself ahead of an optional part
theorem failed_call_ends_nested_parse :
    ∃ trace, parser refusing 12 refusingAhead [40, 120] = .ended trace (.error refused) ∧
      .note (.called "check" (.error refused)) ∈ trace ∧
      ∀ earlier call later error, trace = earlier ++ call :: later → call.failure? = some error →
        error = refused ∧ ∃ own, Event.Leaves call own ∧ later = own ++ [.raised error] := by
  have h : parser refusing 12 refusingAhead [40, 120] = .ended _ (.error refused) := rfl
  refine ⟨_, h, by simp, ?_⟩
  intro earlier call later error hsplit hcall
  obtain ⟨herror, -, hlast⟩ := (failed_call_ends_parse h).2 _ _ _ _ hsplit hcall
  exact ⟨(Except.error.inj herror).symm, hlast⟩

end ByteGrammar.Grammar

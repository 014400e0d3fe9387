import ByteGrammar.Proofs.Parser.Derived
import ByteGrammar.Proofs.Parser.Matches

namespace ByteGrammar.Parser

variable {ν α β γ : Type}

-- Two parsers in sequence, by how the first one ends

theorem both_of_match {first : Parser ν α} {input tail : Bytes} {own : List (Event ν)} {value : α}
    (h : first input = .ended own (.ok (.matched value tail))) (second : Parser ν β) :
    first.both second input = ((second.map fun other => (value, other)) tail).after own := by
  simp [both, andThen, h]

theorem both_of_noMatch {first : Parser ν α} {input : Bytes} {own : List (Event ν)}
    (h : first input = .ended own (.ok .noMatch)) (second : Parser ν β) :
    first.both second input = .ended own (.ok .noMatch) := by
  simp [both, andThen, h]

theorem both_of_error {first : Parser ν α} {input : Bytes} {own : List (Event ν)} {error : Error}
    (h : first input = .ended own (.error error)) (second : Parser ν β) :
    first.both second input = .ended own (.error error) := by
  simp [both, andThen, h]

theorem both_of_unfinished {first : Parser ν α} {input : Bytes} (h : first input = .unfinished)
    (second : Parser ν β) : first.both second input = .unfinished := by
  simp [both, andThen, h]

-- A sequence gives what is left of it after a match
theorem both_gives_iff_of_match {first : Parser ν α} {input tail : Bytes} {own : List (Event ν)}
    {value : α} (h : first input = .ended own (.ok (.matched value tail))) (second : Parser ν β)
    (result : Except Error (Outcome (α × β))) :
    (first.both second input).Gives result ↔
      ((second.map fun other => (value, other)) tail).Gives result := by
  rw [both_of_match h, Run.after_gives_iff]

-- What a choice gives depends on what its arms give, even if they are run in different places
theorem choice_gives_congr {arms : List γ} {part other : γ → Parser ν α} {place another : Bytes}
    (h : ∀ arm result, (part arm place).Gives result ↔ (other arm another).Gives result)
    (result : Except Error (Outcome α)) :
    (choice (arms.map part) place).Gives result ↔
      (choice (arms.map other) another).Gives result := by
  induction arms generalizing result with
  | nil => rfl
  | cons arm rest ih => simp only [List.map_cons, choice, orElse_gives_iff, h, ih]

-- A common first part

theorem choice_both_of_match {first : Parser ν α} {input tail : Bytes} {own : List (Event ν)}
    {value : α} (h : first input = .ended own (.ok (.matched value tail)))
    (arms : List (Parser ν β)) :
    choice (arms.map first.both) input =
      choice (arms.map fun arm place => ((arm.map fun other => (value, other)) place).after own)
        tail := by
  induction arms with
  | nil => rfl
  | cons arm rest ih => simp only [List.map_cons, choice, orElse, both_of_match h, ih]

theorem choice_both_of_noMatch {first : Parser ν α} {input : Bytes} {own : List (Event ν)}
    (h : first input = .ended own (.ok .noMatch)) (arms : List (Parser ν β)) :
    choice (arms.map first.both) input =
      .ended (List.replicate arms.length own).flatten (.ok .noMatch) := by
  have hpassed : PassedOver (arms.map first.both) input (List.replicate arms.length own) := by
    induction arms with
    | nil => exact .nil
    | cons arm rest ih => exact .cons (both_of_noMatch h arm) ih
  exact hpassed.choice_eq

-- It makes no difference to the result whether the first part is run once or for each alternative
theorem both_choice_gives_iff (first : Parser ν α) {arms : List (Parser ν β)} (harms : arms ≠ [])
    (input : Bytes) (result : Except Error (Outcome (α × β))) :
    (first.both (choice arms) input).Gives result ↔
      (choice (arms.map first.both) input).Gives result := by
  obtain ⟨arm, rest, rfl⟩ := List.exists_cons_of_ne_nil harms
  cases hfirst : first input with
  | unfinished =>
    have hchoice : choice ((arm :: rest).map first.both) input = .unfinished := by
      simp [choice, orElse, both_of_unfinished hfirst]
    rw [hchoice, both_of_unfinished hfirst]
  | ended own answer =>
    cases answer with
    | error error =>
      have hchoice := choice_cons_eq (both_of_error hfirst arm) (by simp) (rest.map first.both)
      rw [List.map_cons, hchoice, both_of_error hfirst]
    | ok outcome =>
      cases outcome with
      | noMatch =>
        rw [choice_both_of_noMatch hfirst, both_of_noMatch hfirst, Run.ended_gives_iff,
          Run.ended_gives_iff]
      | matched value tail =>
        rw [both_gives_iff_of_match hfirst, choice_map]
        exact choice_gives_congr
          (fun other answer => (both_gives_iff_of_match hfirst other answer).symm) result

-- A common last part. A choice that has taken one of its arms does not come back to it.

theorem exists_ended_of_both {first : Parser ν α} {second : Parser ν β} {input : Bytes}
    {trace : List (Event ν)} {result : Except Error (Outcome (α × β))}
    (h : first.both second input = .ended trace result) :
    ∃ own answer, first input = .ended own answer := by
  rcases Run.bind_eq_ended h with ⟨error, hfirst, -⟩ | ⟨own, _, outcome, hfirst, -, -⟩
  · exact ⟨trace, .error error, hfirst⟩
  · exact ⟨own, .ok outcome, hfirst⟩

theorem map_eq_noMatch {inner : Parser ν α} {f : α → β} {input : Bytes} {trace : List (Event ν)}
    (h : inner.map f input = .ended trace (.ok .noMatch)) :
    inner input = .ended trace (.ok .noMatch) := by
  obtain ⟨own, later, outcome, hinner, hnext, rfl⟩ := Run.bind_eq_ok h
  cases outcome with
  | matched value tail => cases hnext
  | noMatch =>
    cases hnext
    rw [hinner, List.append_nil]

theorem PassedOver.both {arms : List (Parser ν α)} {input : Bytes}
    {runs : List (List (Event ν))} (h : PassedOver arms input runs) (next : Parser ν β) :
    PassedOver (arms.map fun arm => arm.both next) input runs :=
  List.forall₂_map_left_iff.mpr (h.imp fun _ _ hrun => both_of_noMatch hrun next)

-- What follows the arm that decides is run once, whatever other arms there are
theorem PassedOver.choice_both_eq {before : List (Parser ν α)} {input : Bytes}
    {runs : List (List (Event ν))} (hpassed : PassedOver before input runs) {arm : Parser ν α}
    {own : List (Event ν)} {answer : Except Error (Outcome α)}
    (hrun : arm input = .ended own answer) (hanswer : answer ≠ .ok .noMatch)
    (others : List (Parser ν α)) (next : Parser ν β) :
    (choice (before ++ arm :: others)).both next input =
      (arm.both next input).after runs.flatten := by
  have hchoice : choice (before ++ arm :: others) input =
      .ended (runs.flatten ++ own) answer := by
    rw [hpassed.choice_append_eq, choice_cons_eq hrun hanswer, Run.after_ended]
  match answer with
  | .error error => rw [both_of_error hchoice, both_of_error hrun, Run.after_ended]
  | .ok (.matched value tail) =>
    rw [both_of_match hchoice, both_of_match hrun, Run.after_after]
  | .ok .noMatch => exact absurd rfl hanswer

theorem choice_both_of_ended {arms : List (Parser ν α)} {next : Parser ν β} {input : Bytes}
    {trace : List (Event ν)} {result : Except Error (Outcome (α × β))}
    (h : (choice arms).both next input = .ended trace result) (hresult : result ≠ .ok .noMatch) :
    choice (arms.map fun arm => arm.both next) input = .ended trace result := by
  obtain ⟨own, answer, hchoice⟩ := exists_ended_of_both h
  cases choice_eq_ended_iff.mp hchoice with
  | nothing _ runs hpassed =>
    rw [both_of_noMatch hchoice] at h
    cases h
    exact absurd rfl hresult
  | arm before arm after runs own _ hpassed hrun hanswer =>
    rw [hpassed.choice_both_eq hrun hanswer] at h
    obtain ⟨later, hlater, rfl⟩ := Run.after_eq_ended h
    rw [List.map_append, List.map_cons, (hpassed.both next).choice_append_eq,
      choice_cons_eq hlater hresult, Run.after_ended]

-- The arm of a choice that has been taken, when what follows it does not match. The run is the same
-- with any other arms after it, so none of these has been tried.
inductive Committed (arms : List (Parser ν α)) (next : Parser ν β) (input : Bytes) :
    List (Event ν) → Prop
  | mk (before : List (Parser ν α)) (arm : Parser ν α) (after : List (Parser ν α))
      (runs : List (List (Event ν))) (own : List (Event ν)) (value : α) (tail : Bytes)
      (later : List (Event ν)) (harms : arms = before ++ arm :: after)
      (hpassed : PassedOver before input runs)
      (hmatch : arm input = .ended own (.ok (.matched value tail)))
      (hnext : next tail = .ended later (.ok .noMatch))
      (hothers : ∀ others, (choice (before ++ arm :: others)).both next input =
        .ended (runs.flatten ++ own ++ later) (.ok .noMatch)) :
      Committed arms next input (runs.flatten ++ own ++ later)

theorem passedOver_or_committed {arms : List (Parser ν α)} {next : Parser ν β} {input : Bytes}
    {trace : List (Event ν)} (h : (choice arms).both next input = .ended trace (.ok .noMatch)) :
    (∃ runs, PassedOver arms input runs ∧ trace = runs.flatten) ∨
      Committed arms next input trace := by
  obtain ⟨own, answer, hchoice⟩ := exists_ended_of_both h
  cases choice_eq_ended_iff.mp hchoice with
  | nothing _ runs hpassed =>
    rw [both_of_noMatch hchoice] at h
    cases h
    exact .inl ⟨runs, hpassed, rfl⟩
  | arm before arm after runs own _ hpassed hrun hanswer =>
    have hothers := fun others => hpassed.choice_both_eq hrun hanswer others next
    rw [hothers after] at h
    obtain ⟨later, hlater, rfl⟩ := Run.after_eq_ended h
    simp only [hlater, Run.after_ended] at hothers
    match answer with
    | .error error =>
      rw [both_of_error hrun] at hlater
      cases hlater
    | .ok .noMatch => exact absurd rfl hanswer
    | .ok (.matched value tail) =>
      rw [both_of_match hrun] at hlater
      obtain ⟨last, hlast, rfl⟩ := Run.after_eq_ended hlater
      simp only [← List.append_assoc] at hothers ⊢
      exact .inr (.mk before arm after runs own value tail last rfl hpassed hrun
        (map_eq_noMatch hlast) hothers)

-- A common first part may be taken out of a choice: the result is the same, although the choice of
-- sequences runs that part again for each alternative that it tries, on the same input and so up to
-- the same tail. A common last part may be taken out as long as something comes of it, be it a
-- match or an error. If nothing matches after an alternative has, then the alternatives after that
-- one have not been tried.
theorem choice_factors_and_commits (first : Parser ν α) (arms : List (Parser ν β))
    (next : Parser ν γ) (input : Bytes) :
    (arms ≠ [] → ∀ result, (first.both (choice arms) input).Gives result ↔
      (choice (arms.map first.both) input).Gives result) ∧
    (∀ own value tail, first input = .ended own (.ok (.matched value tail)) →
      first.both (choice arms) input =
        ((choice arms).map (fun other => (value, other)) tail).after own ∧
      choice (arms.map first.both) input =
        choice (arms.map fun arm place => ((arm.map fun other => (value, other)) place).after own)
          tail) ∧
    (∀ own, first input = .ended own (.ok .noMatch) → choice (arms.map first.both) input =
      .ended (List.replicate arms.length own).flatten (.ok .noMatch)) ∧
    (∀ trace result, (choice arms).both next input = .ended trace result →
      result ≠ .ok .noMatch →
      choice (arms.map fun arm => arm.both next) input = .ended trace result) ∧
    ∀ trace, (choice arms).both next input = .ended trace (.ok .noMatch) →
      (∃ runs, PassedOver arms input runs ∧ trace = runs.flatten) ∨
        Committed arms next input trace :=
  ⟨fun harms => both_choice_gives_iff first harms input,
    fun _ _ _ hfirst => ⟨both_of_match hfirst _, choice_both_of_match hfirst arms⟩,
    fun _ hfirst => choice_both_of_noMatch hfirst arms,
    fun _ _ h hresult => choice_both_of_ended h hresult,
    fun _ h => passedOver_or_committed h⟩

-- "ab" with 'a' before a choice of 'c' and 'b', "b" with the same, and "abc" with a choice of "a"
-- and "ab" before 'b' and before 'c', where only the choice of sequences gets to "ab" and 'c'
theorem choice_factors_and_commits_letters :
    ([byte 99, byte 98] : List (Parser Unit UInt8)) ≠ [] ∧
    (choice ([byte 99, byte 98].map (byte 97).delay.both) [97, 98] : Run Unit _).Gives
      (.ok (.matched (97, 98) [])) ∧
    (choice ([byte 99, byte 98].map (byte 97).delay.both) [97, 98] : Run Unit _) =
      .ended [.building [97, 98], .building [97, 98]] (.ok (.matched (97, 98) [])) ∧
    (choice ([byte 99, byte 98].map (byte 97).delay.both) [98] : Run Unit _) =
      .ended [.building [98], .building [98]] (.ok .noMatch) ∧
    (choice ([literal [97], literal [97, 98]].map fun arm => arm.both (byte 98)) [97, 98, 99] :
      Run Unit _) = .ended [] (.ok (.matched ([97], 98) [99])) ∧
    Committed [literal [97], literal [97, 98]] (byte 99 : Parser Unit UInt8) [97, 98, 99] [] ∧
    (choice ([literal [97], literal [97, 98]].map fun arm => arm.both (byte 99)) [97, 98, 99] :
      Run Unit _).Gives (.ok (.matched ([97, 98], 99) [])) := by
  have hfactored := choice_factors_and_commits (byte 97 : Parser Unit UInt8).delay
    [byte 99, byte 98] (byte 98) [97, 98]
  have hmissed := choice_factors_and_commits (byte 97 : Parser Unit UInt8).delay
    [byte 99, byte 98] (byte 98) [98]
  have hkept := choice_factors_and_commits (byte 97 : Parser Unit UInt8)
    [literal [97], literal [97, 98]] (byte 98) [97, 98, 99]
  have hlost := choice_factors_and_commits (byte 97 : Parser Unit UInt8)
    [literal [97], literal [97, 98]] (byte 99) [97, 98, 99]
  refine ⟨nofun, (hfactored.1 nofun _).mp ⟨_, rfl⟩, ?_, hmissed.2.2.1 _ rfl,
    hkept.2.2.2.1 _ _ rfl nofun, ?_, _, rfl⟩
  · rw [(hfactored.2.1 _ _ _ rfl).2]
    rfl
  · rcases hlost.2.2.2.2 [] rfl with ⟨runs, hpassed, -⟩ | hcommitted
    · cases hpassed with
      | cons hrun hrest => cases hrun
    · exact hcommitted

end ByteGrammar.Parser

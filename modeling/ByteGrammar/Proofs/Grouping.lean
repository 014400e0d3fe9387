import ByteGrammar.Proofs.Parser.Derived

namespace ByteGrammar

variable {ν α β γ δ : Type}

-- A way of grouping leaves: any number of groupings next to each other, or two of them. The value
-- of a nested sequence is of this form as well, with the values of the leaves in their places.
inductive Grouping (γ : Type) where
  | leaf (content : γ)
  | group (parts : List (Grouping γ))
  | pair (first second : Grouping γ)

namespace Grouping

mutual

-- What is left when the grouping is forgotten
def leaves : Grouping γ → List γ
  | leaf content => [content]
  | group parts => leavesAll parts
  | pair first second => first.leaves ++ second.leaves

def leavesAll : List (Grouping γ) → List γ
  | [] => []
  | part :: rest => part.leaves ++ leavesAll rest

end

mutual

-- Groups that are choices
def choice (part : γ → Parser ν α) : Grouping γ → Parser ν α
  | leaf name => part name
  | group parts => Parser.choice (choiceAll part parts)
  | pair first second => (first.choice part).orElse (second.choice part)

def choiceAll (part : γ → Parser ν α) : List (Grouping γ) → List (Parser ν α)
  | [] => []
  | arm :: rest => arm.choice part :: choiceAll part rest

end

mutual

-- Groups that are sequences
def sequence (part : γ → Parser ν α) : Grouping γ → Parser ν (Grouping α)
  | leaf name => (part name).map .leaf
  | group parts => (Parser.sequence (sequenceAll part parts)).map .group
  | pair first second =>
    ((first.sequence part).both (second.sequence part)).map fun values => .pair values.1 values.2

def sequenceAll (part : γ → Parser ν α) : List (Grouping γ) → List (Parser ν (Grouping α))
  | [] => []
  | first :: rest => first.sequence part :: sequenceAll part rest

end

mutual

theorem choice_eq (part : γ → Parser ν α) (tree : Grouping γ) :
    tree.choice part = Parser.choice (tree.leaves.map part) :=
  match tree with
  | leaf name => (Parser.orElse_never (part name)).symm
  | group parts => choiceAll_eq part parts
  | pair first second => by
    rw [choice, choice_eq part first, choice_eq part second, leaves, List.map_append,
      Parser.choice_append]

theorem choiceAll_eq (part : γ → Parser ν α) (arms : List (Grouping γ)) :
    Parser.choice (choiceAll part arms) = Parser.choice ((leavesAll arms).map part) :=
  match arms with
  | [] => rfl
  | arm :: rest => by
    rw [choiceAll, Parser.choice, choice_eq part arm, choiceAll_eq part rest, leavesAll,
      List.map_append, Parser.choice_append]

end

mutual

theorem sequence_eq (part : γ → Parser ν α) (tree : Grouping γ) :
    (tree.sequence part).map leaves = Parser.sequence (tree.leaves.map part) :=
  match tree with
  | leaf name => by
    rw [sequence, Parser.map_map, leaves, List.map_singleton, Parser.sequence_singleton]
    rfl
  | group parts => by
    rw [sequence, Parser.map_map]
    exact sequenceAll_eq part parts
  | pair first second => by
    rw [leaves, List.map_append, Parser.sequence_append, ← sequence_eq part first,
      ← sequence_eq part second, ← Parser.andThen_map_mapped]
    simp only [sequence, Parser.both, Parser.map_andThen, Parser.map_map, leaves]

theorem sequenceAll_eq (part : γ → Parser ν α) (parts : List (Grouping γ)) :
    (Parser.sequence (sequenceAll part parts)).map leavesAll =
      Parser.sequence ((leavesAll parts).map part) :=
  match parts with
  | [] => rfl
  | first :: rest => by
    rw [leavesAll, List.map_append, Parser.sequence_append, ← sequence_eq part first,
      ← sequenceAll_eq part rest, ← Parser.andThen_map_mapped]
    simp only [sequenceAll, Parser.sequence, Parser.map_andThen, Parser.map_map, leavesAll]

end

-- A leaf as it is seen from outside. It leaves one note, of which leaf it is and on what it is
-- run, in place of its own trace. One that does not end is stopped there with an error, so
-- that the notes before it are not lost.
def visiting (part : γ → Parser ν α) (name : γ) : Parser (γ × Bytes) α := fun input =>
  match part name input with
  | .unfinished => .ended [.note (name, input)] (.error (.custom "unfinished" []))
  | .ended _ result => .ended [.note (name, input)] result

-- The visits noted in `seen` are those that make up the trace of the run, one after the other
def Shows (part : γ → Parser ν α) (seen : Run (γ × Bytes) β) (run : Run ν β) : Prop :=
  ∀ trace result, run = .ended trace result → ∃ visits runs,
    seen = .ended (visits.map .note) result ∧ trace = runs.flatten ∧
      List.Forall₂ (fun visit own => ∃ answer, part visit.1 visit.2 = .ended own answer) visits runs

section Visits

variable {part : γ → Parser ν α}

theorem Shows.pure (value : β) : Shows part (.pure value) (.pure value) := by
  intro trace result h
  cases h
  exact ⟨[], [], rfl, rfl, .nil⟩

theorem Shows.leaf (name : γ) (input : Bytes) :
    Shows part (visiting part name input) (part name input) := by
  intro trace result h
  refine ⟨[(name, input)], [trace], ?_, by simp, .cons ⟨result, h⟩ .nil⟩
  simp only [visiting, h, List.map_cons, List.map_nil]

theorem Shows.bind {seen : Run (γ × Bytes) β} {first : Run ν β} (hfirst : Shows part seen first)
    {after : β → Run (γ × Bytes) δ} {next : β → Run ν δ}
    (hnext : ∀ value, Shows part (after value) (next value)) :
    Shows part (seen >>= after) (first >>= next) := by
  intro trace result h
  rcases Run.bind_eq_ended h with ⟨error, herror, rfl⟩ | ⟨earlier, later, value, hvalue, hlater, rfl⟩
  · obtain ⟨visits, runs, rfl, rfl, hruns⟩ := hfirst trace _ herror
    exact ⟨visits, runs, rfl, rfl, hruns⟩
  · obtain ⟨visits, runs, rfl, rfl, hruns⟩ := hfirst earlier _ hvalue
    obtain ⟨more, others, hseen, rfl, hothers⟩ := hnext value later result hlater
    refine ⟨visits ++ more, runs ++ others, ?_, by simp, List.rel_append hruns hothers⟩
    rw [Run.ok_bind, hseen, Run.after_ended, List.map_append]

theorem Shows.map {seen : Parser (γ × Bytes) β} {parser : Parser ν β}
    (h : ∀ input, Shows part (seen input) (parser input)) (f : β → δ) (input : Bytes) :
    Shows part (seen.map f input) (parser.map f input) := by
  apply (h input).bind
  intro outcome
  cases outcome with
  | matched value tail => exact .pure _
  | noMatch => exact .pure _

theorem Shows.notFollowedBy {seen : Parser (γ × Bytes) β} {parser : Parser ν β} {input : Bytes}
    (h : Shows part (seen input) (parser input)) :
    Shows part (seen.notFollowedBy input) (parser.notFollowedBy input) := by
  apply h.bind
  intro outcome
  cases outcome with
  | matched value tail => exact .pure _
  | noMatch => exact .pure _

theorem Shows.choice (arms : List γ) (input : Bytes) :
    Shows part (Parser.choice (arms.map (visiting part)) input)
      (Parser.choice (arms.map part) input) := by
  induction arms with
  | nil => exact .pure _
  | cons arm rest ih =>
    apply (Shows.leaf arm input).bind
    intro outcome
    cases outcome with
    | matched value tail => exact .pure _
    | noMatch => exact ih

theorem Shows.sequence (parts : List γ) (input : Bytes) :
    Shows part (Parser.sequence (parts.map (visiting part)) input)
      (Parser.sequence (parts.map part) input) := by
  induction parts generalizing input with
  | nil => exact .pure _
  | cons first rest ih =>
    apply (Shows.leaf first input).bind
    intro outcome
    cases outcome with
    | matched value tail => exact Shows.map ih _ tail
    | noMatch => exact .pure _

theorem eq_of_visiting {name : γ} {input : Bytes} {trace : List (Event (γ × Bytes))}
    {result : Except Error (Outcome α)} (h : visiting part name input = .ended trace result) :
    trace = [.note (name, input)] := by
  unfold visiting at h
  cases hrun : part name input with
  | unfinished =>
    rw [hrun] at h
    cases h
    rfl
  | ended own answer =>
    rw [hrun] at h
    cases h
    rfl

-- The visits of a choice are to its first arms in order, each on the input of the choice
theorem choice_visits {arms : List γ} {input : Bytes} {trace : List (Event (γ × Bytes))}
    {result : Except Error (Outcome α)}
    (h : Parser.choice (arms.map (visiting part)) input = .ended trace result) :
    ∃ tried untried, arms = tried ++ untried ∧
      trace = tried.map fun arm => .note (arm, input) := by
  obtain ⟨tried, untried, runs, harms, rfl, hruns⟩ := Parser.choice_trace h
  refine ⟨tried, untried, harms, ?_⟩
  clear h harms
  induction hruns with
  | nil => rfl
  | @cons arm run tried runs hrun hrest ih =>
    obtain ⟨outcome, hrun⟩ := hrun
    rw [List.flatten_cons, ih, eq_of_visiting hrun]
    rfl

end Visits

-- Two ways of grouping the same leaves in the same order are the same choice, and but for how the
-- values are nested the same sequence: the runs are equal, with all that the leaves
-- trace. The same leaves are run on the same inputs in the same order, also where one of them
-- does not end; these visits make up the trace.
theorem grouping_is_irrelevant {first second : Grouping γ} (h : first.leaves = second.leaves)
    (part : γ → Parser ν α) :
    (first.choice part = second.choice part ∧
      first.choice (visiting part) = second.choice (visiting part) ∧
      ∀ input, Shows part (first.choice (visiting part) input) (first.choice part input)) ∧
    ((first.sequence part).map leaves = (second.sequence part).map leaves ∧
      (first.sequence (visiting part)).map leaves = (second.sequence (visiting part)).map leaves ∧
      ∀ input, Shows part ((first.sequence (visiting part)).map leaves input)
        ((first.sequence part).map leaves input)) := by
  simp only [choice_eq, sequence_eq, h, true_and]
  exact ⟨Shows.choice second.leaves, Shows.sequence second.leaves⟩

-- Pairs in pairs against groups in a group, one of them empty
theorem grouping_is_irrelevant_chained :
    leaves (.pair (.pair (.leaf 97) (.leaf 98)) (.leaf 99)) =
      leaves (.group [.leaf 97, .group [], .group [.leaf 98, .group [.leaf (99 : UInt8)]]]) ∧
    choice (visiting (Parser.byte : UInt8 → Parser Unit UInt8))
      (.pair (.pair (.leaf 97) (.leaf 98)) (.leaf 99)) [98, 100] =
        .ended [.note (97, [98, 100]), .note (98, [98, 100])] (.ok (.matched 98 [100])) ∧
    (sequence (visiting (Parser.byte : UInt8 → Parser Unit UInt8))
      (.pair (.pair (.leaf 97) (.leaf 98)) (.leaf 99))).map leaves [97, 98, 99, 100] =
        .ended [.note (97, [97, 98, 99, 100]), .note (98, [98, 99, 100]), .note (99, [99, 100])]
          (.ok (.matched [97, 98, 99] [100])) := by
  have hleaves : leaves (.pair (.pair (.leaf 97) (.leaf 98)) (.leaf 99)) =
      leaves (.group [.leaf 97, .group [], .group [.leaf 98, .group [.leaf (99 : UInt8)]]]) := rfl
  obtain ⟨⟨-, hchoice, -⟩, -, hsequence, -⟩ :=
    grouping_is_irrelevant hleaves (Parser.byte : UInt8 → Parser Unit UInt8)
  refine ⟨hleaves, ?_, ?_⟩
  · rw [hchoice]
    rfl
  · rw [hsequence]
    rfl

end Grouping

end ByteGrammar

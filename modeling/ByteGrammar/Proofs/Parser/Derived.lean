import ByteGrammar.Proofs.Parser.Choice

namespace ByteGrammar.Parser

variable {ν α β γ δ ε : Type}

-- A function that is applied at the end may be applied on the way

theorem map_andThen (first : Parser ν α) (next : α → Parser ν β) (f : β → γ) :
    (first.andThen next).map f = first.andThen fun value => (next value).map f := by
  funext input
  simp only [map, refine, andThen, bind_assoc]
  congr 1
  funext outcome
  cases outcome <;> rfl

theorem map_map (inner : Parser ν α) (f : α → β) (g : β → γ) :
    (inner.map f).map g = inner.map fun value => g (f value) := by
  funext input
  simp only [map, refine, bind_assoc]
  congr 1
  funext outcome
  cases outcome <;> rfl

theorem mapped_andThen (first : Parser ν α) (f : α → β) (next : β → Parser ν γ) :
    (first.map f).andThen next = first.andThen fun value => next (f value) := by
  funext input
  simp only [map, refine, andThen, bind_assoc]
  congr 1
  funext outcome
  cases outcome <;> simp

-- Two values may be changed before they are put together
theorem andThen_map_mapped (first : Parser ν α) (second : Parser ν β) (f : α → γ) (g : β → δ)
    (join : γ → δ → ε) :
    (first.andThen fun value => second.map fun other => join (f value) (g other)) =
      (first.map f).andThen fun value => (second.map g).map (join value) := by
  simp only [mapped_andThen, map_map]

theorem andThen_assoc (first : Parser ν α) (next : α → Parser ν β) (last : β → Parser ν γ) :
    (first.andThen next).andThen last = first.andThen fun value => (next value).andThen last := by
  funext input
  simp only [andThen, bind_assoc]
  congr 1
  funext outcome
  cases outcome <;> simp

theorem refine_map (inner : Parser ν α) (f : α → Run ν β) (g : β → γ) :
    (inner.refine f).map g = inner.refine fun value => g <$> f value := by
  funext input
  simp only [map, refine, bind_assoc]
  congr 1
  funext outcome
  cases outcome with
  | noMatch => rfl
  | matched value tail => simp [bind_assoc]

theorem orElse_map (first second : Parser ν α) (f : α → β) :
    (first.orElse second).map f = (first.map f).orElse (second.map f) := by
  funext input
  simp only [map, refine, orElse, bind_assoc]
  congr 1
  funext outcome
  cases outcome with
  | noMatch => simp
  | matched value tail => rfl

theorem choice_map (arms : List (Parser ν α)) (f : α → β) :
    (choice arms).map f = choice (arms.map (map f)) := by
  induction arms with
  | nil => rfl
  | cons arm rest ih => rw [choice, orElse_map, ih, List.map_cons, choice]

theorem map_notFollowedBy (inner : Parser ν α) (f : α → β) :
    (inner.map f).notFollowedBy = inner.notFollowedBy := by
  funext input
  simp only [map, refine, notFollowedBy, bind_assoc]
  congr 1
  funext outcome
  cases outcome <;> rfl

theorem andThen_succeed (inner : Parser ν α) (f : α → β) :
    (inner.andThen fun value => succeed (f value)) = inner.map f := by
  funext input
  simp only [map, refine, andThen]
  congr 1

theorem succeed_andThen (value : α) (next : α → Parser ν β) :
    (succeed value).andThen next = next value := by
  funext input
  exact Run.after_nil (next value input)

theorem succeed_map (value : α) (f : α → β) :
    (succeed value : Parser ν α).map f = succeed (f value) :=
  rfl

theorem sequence_singleton (only : Parser ν α) : sequence [only] = only.map fun value => [value] :=
  andThen_succeed only fun value => [value]

theorem map_id (inner : Parser ν α) : (inner.map fun value => value) = inner := by
  funext input
  simp only [map, refine]
  conv => rhs; rw [← bind_pure (inner input)]
  congr 1
  funext outcome
  cases outcome <;> simp

theorem sequence_append (first second : List (Parser ν α)) :
    sequence (first ++ second) =
      (sequence first).andThen fun values => (sequence second).map (values ++ ·) := by
  induction first with
  | nil =>
    rw [sequence, succeed_andThen]
    simp only [List.nil_append, map_id]
  | cons part rest ih =>
    rw [List.cons_append, sequence, ih, sequence, andThen_assoc]
    simp only [map_andThen, mapped_andThen, map_map, List.cons_append]

-- The combinators that others could stand for

theorem orElse_eq_choice (first second : Parser ν α) :
    first.orElse second = choice [first, second] := by
  rw [choice, choice, choice, orElse_never]

theorem both_map (first second : Parser ν α) :
    ((first.both second).map fun pair => [pair.1, pair.2]) = sequence [first, second] := by
  rw [sequence, sequence_singleton, both, map_andThen]
  simp only [map_map]

theorem between_eq_sequence (opening inner closing : Parser ν α) (fallback : α) :
    opening.between inner closing =
      (sequence [opening, inner, closing]).map fun values => values.getD 1 fallback := by
  rw [sequence, sequence, sequence_singleton, between, map_andThen]
  simp only [map_map, map_andThen]
  rfl

theorem optional_eq_orElse (inner : Parser ν α) :
    inner.optional = (inner.map some).orElse (succeed none) := by
  funext input
  simp only [optional, map, refine, orElse, bind_assoc]
  congr 1
  funext outcome
  cases outcome <;> rfl

theorem followedBy_eq_notFollowedBy (inner : Parser ν α) :
    inner.followedBy = inner.notFollowedBy.notFollowedBy := by
  funext input
  simp only [followedBy, notFollowedBy, bind_assoc]
  congr 1
  funext outcome
  cases outcome <;> rfl

theorem anyByte_eq_satisfy : (anyByte : Parser ν UInt8) = satisfy fun _ => true := by
  funext input
  cases input <;> rfl

theorem byte_eq_satisfy (expected : UInt8) :
    (byte expected : Parser ν UInt8) = satisfy fun first => first = expected := by
  funext input
  cases input with
  | nil => rfl
  | cons first tail => by_cases h : first = expected <;> simp [byte, satisfy, satisfyRun, h]

theorem atEnd_eq_notFollowedBy :
    (atEnd : Parser ν Unit) = (satisfy fun _ => true).notFollowedBy := by
  funext input
  cases input <;> rfl

end ByteGrammar.Parser

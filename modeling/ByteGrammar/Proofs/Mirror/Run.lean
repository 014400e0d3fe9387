import ByteGrammar.Run
import Mathlib.Data.List.Infix

namespace ByteGrammar

variable {ν μ α β γ δ : Type}

-- The same answer but for the values, which are related
inductive SameAnswer (values : α → β → Prop) : Except Error α → Except Error β → Prop
  | ok (value : α) (other : β) (hvalue : values value other) :
      SameAnswer values (.ok value) (.ok other)
  | error (error : Error) : SameAnswer values (.error error) (.error error)

theorem SameAnswer.of_eq {values : α → α → Prop} (hvalues : ∀ value, values value value)
    (answer : Except Error α) : SameAnswer values answer answer := by
  cases answer with
  | ok value => exact .ok value value (hvalues value)
  | error error => exact .error error

theorem SameAnswer.imp {values others : α → β → Prop} {answer : Except Error α}
    {other : Except Error β} (h : SameAnswer values answer other)
    (hvalues : ∀ value another, values value another → others value another) :
    SameAnswer others answer other := by
  cases h with
  | ok value another hvalue => exact .ok value another (hvalues value another hvalue)
  | error error => exact .error error

theorem SameAnswer.flip {values : α → β → Prop} {answer : Except Error α} {other : Except Error β}
    (h : SameAnswer values answer other) : SameAnswer (flip values) other answer := by
  cases h with
  | ok value other hvalue => exact .ok other value hvalue
  | error error => exact .error error

theorem SameAnswer.eq {answer other : Except Error α} (h : SameAnswer Eq answer other) :
    answer = other := by
  cases h with
  | ok value other hvalue => rw [hvalue]
  | error error => rfl

theorem SameAnswer.combine (combine : α → β → Except Error α) (accumulator other : α)
    (value another : β) (haccumulator : accumulator = other) (hvalue : value = another) :
    SameAnswer Eq (combine accumulator value) (combine other another) := by
  rw [haccumulator, hvalue]
  exact .of_eq (fun _ => rfl) _

-- The same event of a repetition or a delay, where there is more after each place
inductive Event.Moved (more : Bytes) : Event ν → Event μ → Prop
  | foldStopped (iterations : Nat) (rest : Bytes) :
      Moved more (.foldStopped iterations rest) (.foldStopped iterations (rest ++ more))
  | foldRejected (rest : Bytes) : Moved more (.foldRejected rest) (.foldRejected (rest ++ more))
  | sequenceFinished (items : Nat) : Moved more (.sequenceFinished items) (.sequenceFinished items)
  | building (rest : Bytes) : Moved more (.building rest) (.building (rest ++ more))
  | raised (error : Error) : Moved more (.raised error) (.raised error)
  | reachedEnd : Moved more .reachedEnd .reachedEnd

-- What a second run has in common with a first one, if it is given an input with `more` at its
-- end. Nothing is asked of it where the first has a piece in its trace that is an excuse.
structure Mirror (ν μ : Type) where
  more : Bytes
  excuse : List (Event ν) → Prop
  traces : List (Event ν) → List (Event μ) → Prop
  traces_nil : traces [] []
  traces_append {first later : List (Event ν)} {second other : List (Event μ)} :
    traces first second → traces later other → traces (first ++ later) (second ++ other)
  traces_moved {first : Event ν} {second : Event μ} :
    Event.Moved more first second → traces [first] [second]

variable {mirror : Mirror ν μ}

def Mirror.Excuses (mirror : Mirror ν μ) (trace : List (Event ν)) : Prop :=
  ∃ piece, piece <:+: trace ∧ mirror.excuse piece

theorem Mirror.Excuses.append_left {later : List (Event ν)} (h : mirror.Excuses later)
    (earlier : List (Event ν)) : mirror.Excuses (earlier ++ later) := by
  obtain ⟨piece, hpiece, hexcuse⟩ := h
  exact ⟨piece, hpiece.trans (List.suffix_append _ _).isInfix, hexcuse⟩

theorem Mirror.Excuses.append_right {earlier : List (Event ν)} (h : mirror.Excuses earlier)
    (later : List (Event ν)) : mirror.Excuses (earlier ++ later) := by
  obtain ⟨piece, hpiece, hexcuse⟩ := h
  exact ⟨piece, hpiece.trans (List.prefix_append _ _).isInfix, hexcuse⟩

namespace Run

-- If the first run ends and has no excuse, then the second run ends as well
def Mirrored (mirror : Mirror ν μ) (values : α → β → Prop) (first : Run ν α) (second : Run μ β) :
    Prop :=
  ∀ trace result, first = .ended trace result → mirror.Excuses trace ∨
    ∃ other answer, second = .ended other answer ∧ mirror.traces trace other ∧
      SameAnswer values result answer

variable {values : α → β → Prop} {results : γ → δ → Prop}

theorem Mirrored.ended {trace : List (Event ν)} {other : List (Event μ)} {result : Except Error α}
    {answer : Except Error β} (htraces : mirror.traces trace other)
    (hanswer : SameAnswer values result answer) :
    Mirrored mirror values (.ended trace result) (.ended other answer) := by
  intro _ _ h
  cases h
  exact .inr ⟨other, answer, rfl, htraces, hanswer⟩

theorem Mirrored.excused {piece : List (Event ν)} (hexcuse : mirror.excuse piece)
    (run : Run ν α) (second : Run μ β) : Mirrored mirror values (run.after piece) second := by
  intro trace result h
  obtain ⟨later, -, rfl⟩ := after_eq_ended h
  exact .inl ⟨piece, (List.prefix_append _ _).isInfix, hexcuse⟩

theorem Mirrored.pure {value : α} {other : β} (h : values value other) :
    Mirrored mirror values (Pure.pure value) (Pure.pure other) :=
  .ended mirror.traces_nil (.ok value other h)

theorem Mirrored.after {first : Run ν α} {second : Run μ β} {earlier : List (Event ν)}
    {other : List (Event μ)} (htraces : mirror.traces earlier other)
    (h : Mirrored mirror values first second) :
    Mirrored mirror values (first.after earlier) (second.after other) := by
  intro trace result hfirst
  obtain ⟨later, rfl, rfl⟩ := after_eq_ended hfirst
  rcases h _ _ rfl with hexcused | ⟨otherLater, answer, rfl, hlater, hanswer⟩
  · exact .inl (hexcused.append_left earlier)
  · exact .inr ⟨other ++ otherLater, answer, rfl, mirror.traces_append htraces hlater, hanswer⟩

theorem Mirrored.bind {first : Run ν α} {second : Run μ β} {next : α → Run ν γ}
    {other : β → Run μ δ} (hrun : Mirrored mirror values first second)
    (hnext : ∀ value another, values value another →
      Mirrored mirror results (next value) (other another)) :
    Mirrored mirror results (first >>= next) (second >>= other) := by
  intro trace result h
  rcases bind_eq_ended h with ⟨error, hfirst, rfl⟩ | ⟨earlier, later, value, hfirst, hlater, rfl⟩
  · rcases hrun _ _ hfirst with hexcused | ⟨secondTrace, _, rfl, htraces, hanswer⟩
    · exact .inl hexcused
    · cases hanswer
      exact .inr ⟨secondTrace, .error error, rfl, htraces, .error error⟩
  · rcases hrun _ _ hfirst with hexcused | ⟨secondTrace, _, rfl, htraces, hanswer⟩
    · exact .inl (hexcused.append_right later)
    · obtain ⟨_, another, hvalue⟩ := hanswer
      exact (hnext value another hvalue).after htraces _ _ (by rw [hlater, after_ended])

theorem report_mirrored {event : Event ν} {other : Event μ} (h : mirror.traces [event] [other]) :
    Mirrored mirror Eq (report event) (report other) :=
  .ended h (.ok () () rfl)

theorem raise_mirrored (error : Error) :
    Mirrored mirror values (raise error : Run ν α) (raise error : Run μ β) :=
  .ended (mirror.traces_moved (.raised error)) (.error error)

theorem ofExcept_mirrored {answer : Except Error α} {other : Except Error β}
    (h : SameAnswer values answer other) :
    Mirrored mirror values (ofExcept answer) (ofExcept other) := by
  cases h with
  | ok value other hvalue => exact .pure hvalue
  | error error => exact raise_mirrored error

end Run

end ByteGrammar

import ByteGrammar.Error
import ByteGrammar.Outcome

namespace ByteGrammar

-- What can be observed of a parse. Every place in the input is given by the bytes that
-- remain there. The calls of a storage with its answers, `raised` and `reachedEnd` are not
-- shown to users. `raised` marks the moment at which a call has failed, `reachedEnd` that
-- a longer input could have been read differently here. A `note` is left by the user's own
-- functions.
inductive Event (ν : Type) where
  | foldStopped (iterations : Nat) (rest : Bytes)
  | foldRejected (rest : Bytes)
  | sequenceFull (limit : Nat)
  | sequenceFinished (items : Nat)
  | building (rest : Bytes)
  | allocated (answer : Except StorageError Unit)
  | pushed (size : Nat) (answer : Except StorageError Unit)
  | raised (error : Error)
  | reachedEnd
  | note (mark : ν)

-- A computation that leaves a trace and ends with a value or an error, or that does not
-- end within the bound it was given. An error is final: nothing is traced after it.
inductive Run (ν α : Type) where
  | unfinished
  | ended (trace : List (Event ν)) (result : Except Error α)

namespace Run

variable {ν α β γ : Type}

-- The same computation with more before it
@[inline]
def after (earlier : List (Event ν)) : Run ν α → Run ν α
  | unfinished => unfinished
  | ended trace result => ended (earlier ++ trace) result

@[inline]
def pure (value : α) : Run ν α := ended [] (.ok value)

@[inline]
def bind (first : Run ν α) (next : α → Run ν β) : Run ν β :=
  match first with
  | unfinished => unfinished
  | ended trace (.error error) => ended trace (.error error)
  | ended trace (.ok value) => (next value).after trace

instance : Monad (Run ν) where
  pure := pure
  bind := bind

def report (event : Event ν) : Run ν Unit := ended [event] (.ok ())

def raise (error : Error) : Run ν α := ended [.raised error] (.error error)

-- A call that may fail
def ofExcept : Except Error α → Run ν α
  | .ok value => pure value
  | .error error => raise error

@[simp]
theorem after_nil (run : Run ν α) : run.after [] = run := by
  cases run <;> rfl

@[simp]
theorem after_after (first second : List (Event ν)) (run : Run ν α) :
    (run.after second).after first = run.after (first ++ second) := by
  cases run <;> simp [after]

@[simp]
theorem after_unfinished (earlier : List (Event ν)) :
    (unfinished : Run ν α).after earlier = unfinished := rfl

@[simp]
theorem after_ended (earlier trace : List (Event ν)) (result : Except Error α) :
    (ended trace result).after earlier = ended (earlier ++ trace) result := rfl

@[simp]
theorem pure_eq (value : α) : (Pure.pure value : Run ν α) = ended [] (.ok value) := rfl

@[simp]
theorem unfinished_bind (next : α → Run ν β) : (unfinished >>= next) = unfinished := rfl

@[simp]
theorem error_bind (trace : List (Event ν)) (error : Error) (next : α → Run ν β) :
    (ended trace (.error error) >>= next) = ended trace (.error error) := rfl

@[simp]
theorem ok_bind (trace : List (Event ν)) (value : α) (next : α → Run ν β) :
    (ended trace (.ok value) >>= next) = (next value).after trace := rfl

theorem after_bind (earlier : List (Event ν)) (first : Run ν α) (next : α → Run ν β) :
    first.after earlier >>= next = (first >>= next).after earlier := by
  cases first with
  | unfinished => rfl
  | ended trace result => cases result <;> simp

theorem eq_ok_of_ofExcept {answer : Except Error α} {calls : List (Event ν)} {value : α}
    (h : ofExcept answer = ended calls (.ok value)) : answer = .ok value := by
  cases answer with
  | ok result =>
    cases h
    rfl
  | error error => cases h

theorem after_eq_ended {earlier trace : List (Event ν)} {run : Run ν α} {result : Except Error α}
    (h : run.after earlier = ended trace result) :
    ∃ later, run = ended later result ∧ trace = earlier ++ later := by
  cases run with
  | unfinished => cases h
  | ended later other =>
    cases h
    exact ⟨later, rfl, rfl⟩

-- A computation of two parts ends with an error of the first or as the second does
theorem bind_eq_ended {first : Run ν α} {next : α → Run ν β} {trace : List (Event ν)}
    {result : Except Error β} (h : (first >>= next) = ended trace result) :
    (∃ error, first = ended trace (.error error) ∧ result = .error error) ∨
    ∃ earlier later value, first = ended earlier (.ok value) ∧ next value = ended later result ∧
      trace = earlier ++ later := by
  cases first with
  | unfinished => cases h
  | ended earlier other =>
    cases other with
    | error error =>
      cases h
      exact .inl ⟨error, rfl, rfl⟩
    | ok value =>
      obtain ⟨later, hnext, htrace⟩ := after_eq_ended h
      exact .inr ⟨earlier, later, value, rfl, hnext, htrace⟩

theorem bind_eq_ended_iff {first : Run ν α} {next : α → Run ν β} {trace : List (Event ν)}
    {result : Except Error β} :
    (first >>= next) = ended trace result ↔
      (∃ error, first = ended trace (.error error) ∧ result = .error error) ∨
      ∃ earlier later value, first = ended earlier (.ok value) ∧ next value = ended later result ∧
        trace = earlier ++ later := by
  constructor
  · exact bind_eq_ended
  · rintro (⟨error, rfl, rfl⟩ | ⟨earlier, later, value, rfl, hnext, rfl⟩)
    · rfl
    · rw [ok_bind, hnext, after_ended]

theorem bind_eq_ok {first : Run ν α} {next : α → Run ν β} {trace : List (Event ν)} {value : β}
    (h : (first >>= next) = ended trace (.ok value)) :
    ∃ earlier later mid, first = ended earlier (.ok mid) ∧ next mid = ended later (.ok value) ∧
      trace = earlier ++ later := by
  rcases bind_eq_ended h with ⟨error, -, hvalue⟩ | h
  · cases hvalue
  · exact h

instance : LawfulMonad (Run ν) := LawfulMonad.mk' (Run ν)
  (by
    intro α run
    cases run with
    | unfinished => rfl
    | ended trace result => cases result <;> simp [Functor.map, bind, pure])
  (by
    intro α β value next
    simp)
  (by
    intro α β γ first second third
    cases first with
    | unfinished => rfl
    | ended trace result => cases result <;> simp [after_bind])

end Run

end ByteGrammar

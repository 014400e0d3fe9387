import ByteGrammar.Grammar.Parse

namespace ByteGrammar

variable {ρ : Type}

namespace Event

-- The error with which a call of the user's code, or of a storage, has answered
def failure? : Event (Note ρ) → Option Error
  | allocated (.error error) => some (.storage error)
  | pushed _ (.error error) => some (.storage error)
  | note (.called _ (.error error)) => some error
  | note (.seeded (.error error)) => some error
  | note (.combined _ _ (.error error)) => some error
  | note (.consulted (.error error)) => some error
  | _ => none

-- The grammar that is entered, and the place where it is
def entered? : Event (Note ρ) → Option (Grammar ρ × Bytes)
  | note (.entered grammar input) => some (grammar, input)
  | _ => none

-- An event of a parse in which nothing has failed
def Calm : Event (Note ρ) → Prop
  | sequenceFull _ => False
  | raised _ => False
  | event => event.failure? = none

-- What a failing call may trace itself before it returns: a primitive that more input could
-- have told otherwise, or a bounded sequence that is full
inductive Leaves : Event (Note ρ) → List (Event (Note ρ)) → Prop
  | nothing (call : Event (Note ρ)) : Leaves call []
  | reachedEnd (answer : Except Error (Outcome Value)) :
      Leaves (note (.consulted answer)) [reachedEnd]
  | sequenceFull (size limit : Nat) :
      Leaves (pushed size (.error (.limitExceeded limit))) [sequenceFull limit]

-- A call that fails, from when it is made until it has returned its error
inductive Raise : List (Event (Note ρ)) → Error → Prop
  | intro (call : Event (Note ρ)) (own : List (Event (Note ρ))) (error : Error)
      (hfails : call.failure? = some error) (hown : Leaves call own) :
      Raise (call :: (own ++ [raised error])) error

theorem Calm.failure?_eq_none {event : Event (Note ρ)} (h : event.Calm) :
    event.failure? = none := by
  cases event with
  | sequenceFull limit => exact False.elim h
  | raised error => exact False.elim h
  | _ => exact h

theorem not_calm_of_failure? {event : Event (Note ρ)} {error : Error}
    (h : event.failure? = some error) : ¬ event.Calm := by
  intro hcalm
  rw [hcalm.failure?_eq_none] at h
  cases h

theorem Leaves.entered?_eq_none {call event : Event (Note ρ)} {own : List (Event (Note ρ))}
    (h : Leaves call own) (hevent : event ∈ own) : event.entered? = none := by
  cases h with
  | nothing call => cases hevent
  | reachedEnd answer =>
    obtain rfl := List.mem_singleton.mp hevent
    rfl
  | sequenceFull size limit =>
    obtain rfl := List.mem_singleton.mp hevent
    rfl

theorem entered?_eq_none_of_failure? {event : Event (Note ρ)} {error : Error}
    (h : event.failure? = some error) : event.entered? = none := by
  cases event with
  | note mark =>
    cases mark with
    | entered grammar input => cases h
    | _ => rfl
  | _ => rfl

-- Nothing is entered while a call fails
theorem Raise.entered?_eq_none {trace : List (Event (Note ρ))} {error : Error}
    (h : Raise trace error) {event : Event (Note ρ)} (hevent : event ∈ trace) :
    event.entered? = none := by
  obtain ⟨call, own, _, hfails, hown⟩ := h
  rcases List.mem_cons.mp hevent with rfl | hevent
  · exact entered?_eq_none_of_failure? hfails
  · rcases List.mem_append.mp hevent with hevent | hevent
    · exact hown.entered?_eq_none hevent
    · obtain rfl := List.mem_singleton.mp hevent
      rfl

-- After a call that fails there is no other before it has returned
theorem Leaves.failure?_eq_none {call event : Event (Note ρ)} {own : List (Event (Note ρ))}
    {error : Error} (h : Leaves call own) (hevent : event ∈ own ++ [raised error]) :
    event.failure? = none := by
  cases h with
  | nothing call =>
    obtain rfl := List.mem_singleton.mp hevent
    rfl
  | reachedEnd answer =>
    rcases List.mem_cons.mp hevent with rfl | hevent
    · rfl
    · obtain rfl := List.mem_singleton.mp hevent
      rfl
  | sequenceFull size limit =>
    rcases List.mem_cons.mp hevent with rfl | hevent
    · rfl
    · obtain rfl := List.mem_singleton.mp hevent
      rfl

end Event

end ByteGrammar

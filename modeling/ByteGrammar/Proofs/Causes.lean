import ByteGrammar.Error
import Mathlib.Logic.Function.Iterate

namespace ByteGrammar

-- What may stand behind an error: a refusal of the storage, or one of a chain of errors that are
-- given by their messages, with those behind it
inductive Cause where
  | storage (error : StorageError)
  | link (message : String) (further : List String)

namespace Cause

def message : Cause → String
  | storage error => error.message
  | link message _ => message

-- The first of a chain
def first? : List String → Option Cause
  | [] => none
  | message :: further => some (link message further)

-- What stands right behind a cause
def source? : Cause → Option Cause
  | storage (.reserve reason) => some (link reason.message [])
  | storage (.limitExceeded _) => none
  | storage .arena => none
  | link _ further => first? further

end Cause

-- What stands right behind an error. One that is handed on for another has nothing behind it but
-- what the other one has.
def Error.source? : Error → Option Cause
  | storage error => some (.storage error)
  | custom _ causes => Cause.first? causes
  | wrapped inner => inner.source?

-- From source to source until there is none, with the messages on the way
inductive Trail : Option Cause → List String → Prop
  | ended : Trail none []
  | next (cause : Cause) (messages : List String) (hrest : Trail cause.source? messages) :
      Trail (some cause) (cause.message :: messages)

theorem Trail.unique {start : Option Cause} {messages other : List String}
    (h : Trail start messages) (hother : Trail start other) : messages = other := by
  induction h generalizing other with
  | ended =>
    cases hother
    rfl
  | next cause messages hrest ih =>
    cases hother with
    | next _ others hothers => rw [ih hothers]

theorem trail_first? (messages : List String) : Trail (Cause.first? messages) messages := by
  induction messages with
  | nil => exact .ended
  | cons message further ih => exact .next (.link message further) further ih

theorem trail_storage (error : StorageError) :
    Trail (some (.storage error)) (error.message :: error.sources) := by
  refine .next (.storage error) error.sources ?_
  cases error with
  | reserve reason => exact .next (.link reason.message []) [] .ended
  | limitExceeded limit => exact .ended
  | arena => exact .ended

namespace Error

-- The trail of every error comes to an end, by induction on how it is wrapped
theorem trail_sources (error : Error) : Trail error.source? error.sources := by
  induction error with
  | storage error => exact trail_storage error
  | custom message causes => exact trail_first? causes
  | wrapped inner ih => exact ih

theorem trail_iff {error : Error} {messages : List String} :
    Trail error.source? messages ↔ messages = error.sources := by
  constructor
  · exact fun h => h.unique error.trail_sources
  · rintro rfl
    exact error.trail_sources

-- What is handed on by one wrapper is handed on by any number of them
theorem iterate_wrapped {α : Type} {shown : Error → α}
    (h : ∀ inner, shown (wrapped inner) = shown inner) (error : Error) (layers : Nat) :
    shown (wrapped^[layers] error) = shown error := by
  induction layers with
  | zero => rfl
  | succ layers ih => rw [Function.iterate_succ_apply', h, ih]

theorem storage?_wrapped (error : Error) (layers : Nat) :
    (wrapped^[layers + 1] error).storage? = none := by
  rw [Function.iterate_succ_apply']
  rfl

theorem storage?_eq_some_iff {error : Error} {reason : StorageError} :
    error.storage? = some reason ↔ error = .storage reason := by
  cases error <;> simp [storage?]

-- However often an error is wrapped, its message and what stands behind it stay the same, and only
-- its kind is hidden. A refusal of the storage says so and has its reason as the first thing behind
-- it, the first of a chain of errors has the others behind it. There is an end to what stands behind
-- an error, and it is just what is listed.
theorem wrapping_is_transparent (error : Error) :
    (∀ layers, (wrapped^[layers + 1] error).message = error.message ∧
      (wrapped^[layers + 1] error).sources = error.sources ∧
      (wrapped^[layers + 1] error).storage? = none) ∧
    (∀ reason, error.storage? = some reason ↔ error = .storage reason) ∧
    (∀ reason, error.storage? = some reason →
      error.message = "allocation failed: " ++ reason.message ∧
      error.sources.head? = some reason.message) ∧
    (∀ message causes, error = .custom message causes →
      error.message = message ∧ error.sources = causes) ∧
    ∀ messages, Trail error.source? messages ↔ messages = error.sources := by
  refine ⟨?_, fun _ => storage?_eq_some_iff, ?_, ?_, fun _ => trail_iff⟩
  · intro layers
    exact ⟨iterate_wrapped (fun _ => rfl) error (layers + 1),
      iterate_wrapped (fun _ => rfl) error (layers + 1), storage?_wrapped error layers⟩
  · intro reason h
    rw [storage?_eq_some_iff.mp h]
    exact ⟨rfl, rfl⟩
  · rintro message causes rfl
    exact ⟨rfl, rfl⟩

-- Refused memory, wrapped three times and not at all, and a chain of two errors
theorem wrapping_is_transparent_no_memory :
    (wrapped^[3] (.storage (.reserve .allocatorRefused))).message =
      "allocation failed: failed to reserve sequence storage: " ++
        "memory allocation failed because the memory allocator returned an error" ∧
    (wrapped^[3] (.storage (.reserve .allocatorRefused))).sources =
      ["failed to reserve sequence storage: " ++
          "memory allocation failed because the memory allocator returned an error",
        "memory allocation failed because the memory allocator returned an error"] ∧
    (wrapped^[3] (.storage (.reserve .allocatorRefused))).storage? = none ∧
    (storage (.reserve .allocatorRefused)).storage? = some (.reserve .allocatorRefused) ∧
    (storage (.reserve .allocatorRefused)).sources.head? =
      some (StorageError.reserve .allocatorRefused).message ∧
    (custom "bad header" ["bad length"]).message = "bad header" ∧
    Trail (custom "bad header" ["bad length"]).source? ["bad length"] := by
  obtain ⟨hlayers, -, hreason, -, -⟩ :=
    wrapping_is_transparent (.storage (.reserve .allocatorRefused))
  obtain ⟨-, -, -, hchain, htrail⟩ :=
    wrapping_is_transparent (.custom "bad header" ["bad length"])
  obtain ⟨hmessage, hsources, hstorage⟩ := hlayers 2
  exact ⟨hmessage, hsources, hstorage, rfl, (hreason _ rfl).2, (hchain _ _ rfl).1,
    (htrail _).mpr (hchain _ _ rfl).2.symm⟩

end Error

end ByteGrammar

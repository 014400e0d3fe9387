import ByteGrammar.Run

namespace ByteGrammar

-- Where a repetition keeps what it has matched so far. `heap` and `arena` grow without end,
-- `fullArena` cannot grow at all, and `bounded` holds so many elements and no more.
-- A `custom` storage says whether it gives out an empty sequence, and for each sequence
-- whether it may take one more element.
inductive Storage (α : Type) where
  | heap
  | bounded (limit : Nat)
  | arena
  | fullArena
  | custom (empty : Except StorageError Unit) (room : Array α → α → Except StorageError Unit)

namespace Storage

variable {ν α : Type}

-- The storages of the library, none of which is the user's own code
def BuiltIn : Storage α → Prop
  | custom _ _ => False
  | _ => True

-- Whether the storage gives out an empty sequence
def empty : Storage α → Except StorageError Unit
  | heap => .ok ()
  | bounded _ => .ok ()
  | arena => .ok ()
  | fullArena => .ok ()
  | custom empty _ => empty

-- Whether a sequence may take one more element
def room : Storage α → Array α → α → Except StorageError Unit
  | heap, _, _ => .ok ()
  | bounded limit, items, _ =>
    if items.size < limit then .ok () else .error (.limitExceeded limit)
  | arena, _, _ => .ok ()
  | fullArena, _, _ => .error .arena
  | custom _ room, items, value => room items value

-- What is traced when there is no room
def refusal : Storage α → List (Event ν)
  | bounded limit => [.sequenceFull limit]
  | _ => []

def allocate (storage : Storage α) : Run ν (Array α) := do
  Run.report (.allocated storage.empty)
  match storage.empty with
  | .ok _ => pure #[]
  | .error error => Run.raise (.storage error)

-- A push that is refused leaves the sequence as it was
def push (storage : Storage α) (items : Array α) (value : α) : Run ν (Array α) := do
  Run.report (.pushed items.size (storage.room items value))
  match storage.room items value with
  | .ok _ => pure (items.push value)
  | .error error => (Run.raise (.storage error)).after storage.refusal

-- A storage gives out an empty sequence, and takes each value at the end of one

theorem eq_empty_of_allocate {storage : Storage α} {calls : List (Event ν)} {items : Array α}
    (h : storage.allocate = .ended calls (.ok items)) : items = #[] := by
  obtain ⟨_, _, _, -, hrest, -⟩ := Run.bind_eq_ok h
  cases hempty : storage.empty with
  | ok _ =>
    rw [hempty] at hrest
    cases hrest
    rfl
  | error error =>
    rw [hempty] at hrest
    cases hrest

theorem eq_push_of_push {storage : Storage α} {items next : Array α} {value : α}
    {calls : List (Event ν)} (h : storage.push items value = .ended calls (.ok next)) :
    next = items.push value := by
  obtain ⟨_, _, _, -, hrest, -⟩ := Run.bind_eq_ok h
  cases hroom : storage.room items value with
  | ok _ =>
    rw [hroom] at hrest
    cases hrest
    rfl
  | error error =>
    rw [hroom] at hrest
    cases hrest

end Storage

end ByteGrammar

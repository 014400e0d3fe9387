import ByteGrammar.Storage

namespace ByteGrammar

-- Sequences under construction in one storage. They are numbered in the order in which
-- they were opened, and a number is not given out again after its sequence is gone.
structure Workbench (α : Type) where
  storage : Storage α
  sequences : Array (Option (Array α))

namespace Workbench

variable {ν α : Type}

inductive Request (α : Type) where
  | new
  | push (index : Nat) (value : α)
  | length (index : Nat)
  | finish (index : Nat)
  | discard (index : Nat)

-- `missing` answers a request for a sequence that is not there
inductive Reply (α : Type) where
  | opened (index : Nat)
  | length (size : Nat)
  | refused (error : StorageError) (size : Nat)
  | finished (items : List α)
  | discarded (index : Nat)
  | unopened (error : StorageError)
  | missing

def start (storage : Storage α) : Workbench α := ⟨storage, #[]⟩

-- The sequence of a number, if it is still under construction
def contents (bench : Workbench α) (index : Nat) : Option (Array α) :=
  bench.sequences[index]?.join

-- One more sequence, under the next number
def add (bench : Workbench α) : Workbench α :=
  { bench with sequences := bench.sequences.push (some #[]) }

def set (bench : Workbench α) (index : Nat) (sequence : Option (Array α)) : Workbench α :=
  { bench with sequences := bench.sequences.setIfInBounds index sequence }

-- Carries out one request and traces what it causes
def step (bench : Workbench α) : Request α → Workbench α × Reply α × List (Event ν)
  | .new =>
    match bench.storage.empty with
    | .ok _ => (bench.add, .opened bench.sequences.size, [])
    | .error error => (bench, .unopened error, [])
  | .push index value =>
    match bench.contents index with
    | none => (bench, .missing, [])
    | some items =>
      match bench.storage.room items value with
      | .ok _ => (bench.set index (some (items.push value)), .length (items.size + 1), [])
      | .error error => (bench, .refused error items.size, bench.storage.refusal)
  | .length index =>
    match bench.contents index with
    | none => (bench, .missing, [])
    | some items => (bench, .length items.size, [])
  | .finish index =>
    match bench.contents index with
    | none => (bench, .missing, [])
    | some items => (bench.set index none, .finished items.toList, [])
  | .discard index =>
    match bench.contents index with
    | none => (bench, .missing, [])
    | some _ => (bench.set index none, .discarded index, [])

-- Carries out requests in order
def run (bench : Workbench α) : List (Request α) → List (Reply α × List (Event ν))
  | [] => []
  | request :: rest =>
    let (next, answer) := bench.step request
    answer :: run next rest

theorem contents_add (bench : Workbench α) (index : Nat) :
    bench.add.contents index =
      if index = bench.sequences.size then some #[] else bench.contents index := by
  simp only [contents, add, Array.getElem?_push]
  split
  · rfl
  · rfl

theorem contents_set_of_ne (bench : Workbench α) {index other : Nat} (h : other ≠ index)
    (sequence : Option (Array α)) :
    (bench.set index sequence).contents other = bench.contents other := by
  simp only [contents, set]
  rw [Array.getElem?_setIfInBounds_ne (Ne.symm h)]

theorem lt_size_of_contents (bench : Workbench α) {index : Nat} {items : Array α}
    (h : bench.contents index = some items) : index < bench.sequences.size := by
  by_cases hindex : index < bench.sequences.size
  · exact hindex
  · simp [contents, Array.getElem?_eq_none (Nat.le_of_not_lt hindex)] at h

theorem contents_set_self (bench : Workbench α) {index : Nat} {items : Array α}
    (h : bench.contents index = some items) (sequence : Option (Array α)) :
    (bench.set index sequence).contents index = sequence := by
  have hindex := bench.lt_size_of_contents h
  simp only [contents, set]
  rw [Array.getElem?_setIfInBounds_self_of_lt hindex]
  rfl

end Workbench

end ByteGrammar

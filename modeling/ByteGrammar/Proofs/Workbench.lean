import ByteGrammar.Storage.Workbench

namespace ByteGrammar

variable {ν α : Type}

namespace Storage

-- With which error a storage of the library refuses one more push to a sequence, after so many
def refusalAfter : Storage α → Nat → Option StorageError
  | bounded limit, count => if count < limit then none else some (.limitExceeded limit)
  | fullArena, _ => some .arena
  | _, _ => none

-- What a sequence holds after these values have been pushed to it
def kept : Storage α → List α → List α
  | bounded limit, values => values.take limit
  | fullArena, _ => []
  | _, values => values

variable {storage : Storage α}

theorem BuiltIn.empty_eq (h : storage.BuiltIn) : storage.empty = .ok () := by
  cases storage with
  | custom empty room => exact False.elim h
  | _ => rfl

theorem kept_nil (storage : Storage α) : storage.kept [] = [] := by
  cases storage with
  | bounded limit => exact List.take_nil
  | _ => rfl

theorem lt_limit_of_none {limit count : Nat}
    (h : (bounded limit : Storage α).refusalAfter count = none) : count < limit := by
  simp only [refusalAfter] at h
  split at h
  · assumption
  · cases h

theorem room_kept_of_none (h : storage.BuiltIn) {values : List α}
    (hroom : storage.refusalAfter values.length = none) (value : α) :
    storage.room (storage.kept values).toArray value = .ok () := by
  cases storage with
  | custom empty room => exact False.elim h
  | heap | arena => rfl
  | fullArena => cases hroom
  | bounded limit =>
    have hlength := lt_limit_of_none hroom
    simp only [room, kept, List.size_toArray, List.length_take]
    exact if_pos (by omega)

theorem room_kept_of_some (h : storage.BuiltIn) {values : List α} {error : StorageError}
    (hroom : storage.refusalAfter values.length = some error) (value : α) :
    storage.room (storage.kept values).toArray value = .error error := by
  cases storage with
  | custom empty room => exact False.elim h
  | heap | arena => cases hroom
  | fullArena =>
    cases hroom
    rfl
  | bounded limit =>
    simp only [refusalAfter] at hroom
    split at hroom
    · cases hroom
    · cases hroom
      simp only [room, kept, List.size_toArray, List.length_take]
      exact if_neg (by omega)

theorem kept_concat_of_none {values : List α}
    (hroom : storage.refusalAfter values.length = none) (value : α) :
    storage.kept (values ++ [value]) = storage.kept values ++ [value] := by
  cases storage with
  | fullArena => cases hroom
  | bounded limit =>
    have hlength := lt_limit_of_none hroom
    simp only [kept]
    rw [List.take_of_length_le (by simp; omega), List.take_of_length_le (by omega)]
  | _ => rfl

theorem kept_concat_of_some {values : List α} {error : StorageError}
    (hroom : storage.refusalAfter values.length = some error) (value : α) :
    storage.kept (values ++ [value]) = storage.kept values := by
  cases storage with
  | fullArena => rfl
  | bounded limit =>
    simp only [refusalAfter] at hroom
    split at hroom
    · cases hroom
    · simp only [kept]
      exact List.take_append_of_le_length (by omega)
  | _ => cases hroom

end Storage

namespace Workbench

-- The sequence that a request is about, if there is one already
def Request.index? : Request α → Option Nat
  | new => none
  | push index _ => some index
  | length index => some index
  | finish index => some index
  | discard index => some index

-- How many sequences have been opened, in a storage that gives out all that it is asked for
def opened (requests : List (Request α)) : Nat :=
  requests.countP fun
    | .new => true
    | _ => false

-- The values pushed to a sequence, in order
def pushed (index : Nat) (requests : List (Request α)) : List α :=
  requests.filterMap fun
    | .push other value => if other = index then some value else none
    | _ => none

-- A sequence is under construction: it has been opened under its number, and none of the requests
-- since then has taken it away
inductive Live (index : Nat) : List (Request α) → List (Request α) → Prop
  | intro (earlier since : List (Request α)) (hindex : opened earlier = index)
      (hfinish : .finish index ∉ since) (hdiscard : .discard index ∉ since) :
      Live index (earlier ++ .new :: since) since

-- What a request leaves, whatever it is answered
def next (bench : Workbench α) (request : Request α) : Workbench α :=
  (bench.step (ν := Empty) request).1

def after (bench : Workbench α) (requests : List (Request α)) : Workbench α :=
  requests.foldl next bench

-- The requests of a run with their replies
def exchanges (bench : Workbench α) (requests : List (Request α)) :
    List (Request α × Reply α) :=
  requests.zip ((run (ν := Empty) bench requests).map Prod.fst)

-- The values whose push to a sequence has been answered with its new length
def stored (index : Nat) (exchanges : List (Request α × Reply α)) : List α :=
  exchanges.filterMap fun
    | (.push other value, .length _) => if other = index then some value else none
    | _ => none

variable {storage : Storage α} {bench : Workbench α} {index : Nat} {request : Request α}

theorem step_fst (bench : Workbench α) (request : Request α) :
    (bench.step (ν := ν) request).1 = bench.next request := by
  unfold next
  cases request with
  | new => simp only [step]; cases bench.storage.empty <;> rfl
  | push index value =>
    simp only [step]
    cases bench.contents index with
    | none => rfl
    | some items => cases hroom : bench.storage.room items value <;> simp [hroom]
  | length index | finish index | discard index =>
    simp only [step]
    cases bench.contents index <;> rfl

theorem run_cons (bench : Workbench α) (request : Request α) (rest : List (Request α)) :
    (run bench (request :: rest) : List (Reply α × List (Event ν))) =
      (bench.step request).2 :: run (bench.next request) rest := by
  rw [← step_fst (ν := ν)]
  rfl

theorem step_new (hempty : bench.storage.empty = .ok ()) :
    bench.step (ν := ν) .new = (bench.add, .opened bench.sequences.size, []) := by
  simp only [step, hempty]

theorem step_push_of_ok {items : Array α} {value : α} (hcontents : bench.contents index = some items)
    (hroom : bench.storage.room items value = .ok ()) :
    bench.step (ν := ν) (.push index value) =
      (bench.set index (some (items.push value)), .length (items.size + 1), []) := by
  simp only [step, hcontents, hroom]

theorem step_push_of_error {items : Array α} {value : α} {error : StorageError}
    (hcontents : bench.contents index = some items)
    (hroom : bench.storage.room items value = .error error) :
    bench.step (ν := ν) (.push index value) =
      (bench, .refused error items.size, bench.storage.refusal) := by
  simp only [step, hcontents, hroom]

-- A request opens a sequence, changes the one it is about, or leaves everything as it was
theorem next_cases (bench : Workbench α) (request : Request α) :
    (request = .new ∧ bench.next request = bench.add) ∨
    (∃ index sequence, request.index? = some index ∧
      bench.next request = bench.set index sequence) ∨
    (bench.next request = bench ∧ (request = .new → bench.storage.empty ≠ .ok ())) := by
  unfold next
  cases request with
  | new =>
    cases hempty : bench.storage.empty with
    | ok _ => exact .inl ⟨rfl, congrArg Prod.fst (step_new hempty)⟩
    | error error => exact .inr (.inr ⟨by simp only [step, hempty], nofun⟩)
  | push index value =>
    simp only [step]
    split
    · exact .inr (.inr ⟨rfl, nofun⟩)
    · split
      · exact .inr (.inl ⟨index, _, rfl, rfl⟩)
      · exact .inr (.inr ⟨rfl, nofun⟩)
  | length index =>
    simp only [step]
    split <;> exact .inr (.inr ⟨rfl, nofun⟩)
  | finish index | discard index =>
    simp only [step]
    split
    · exact .inr (.inr ⟨rfl, nofun⟩)
    · exact .inr (.inl ⟨index, none, rfl, rfl⟩)

-- What a request leaves as it was

@[simp] theorem next_storage (bench : Workbench α) (request : Request α) :
    (bench.next request).storage = bench.storage := by
  obtain ⟨-, hnext⟩ | ⟨_, _, -, hnext⟩ | ⟨hnext, -⟩ := next_cases bench request <;> rw [hnext] <;> rfl

@[simp] theorem after_storage (bench : Workbench α) (requests : List (Request α)) :
    (bench.after requests).storage = bench.storage := by
  induction requests generalizing bench with
  | nil => rfl
  | cons request rest ih => exact (ih (bench.next request)).trans (next_storage bench request)

theorem opened_cons (request : Request α) (rest : List (Request α)) :
    opened (request :: rest) = opened [request] + opened rest := by
  rw [← List.singleton_append]
  exact List.countP_append

theorem opened_of_ne (h : request ≠ .new) : opened [request] = 0 := by
  cases request with
  | new => exact absurd rfl h
  | _ => rfl

theorem size_next (hempty : bench.storage.empty = .ok ()) (request : Request α) :
    (bench.next request).sequences.size = bench.sequences.size + opened [request] := by
  obtain ⟨rfl, hnext⟩ | ⟨_, _, hindex, hnext⟩ | ⟨hnext, hfull⟩ := next_cases bench request
  · rw [hnext]
    exact Array.size_push _
  · have hne : request ≠ .new := by
      rintro rfl
      cases hindex
    rw [hnext, opened_of_ne hne]
    exact Array.size_setIfInBounds
  · rw [hnext, opened_of_ne fun hnew => hfull hnew hempty, Nat.add_zero]

theorem size_after (hempty : bench.storage.empty = .ok ()) (requests : List (Request α)) :
    (bench.after requests).sequences.size = bench.sequences.size + opened requests := by
  induction requests generalizing bench with
  | nil => rfl
  | cons request rest ih =>
    have hrest := @ih (bench.next request) (by rw [next_storage]; exact hempty)
    rw [opened_cons, ← Nat.add_assoc, ← size_next hempty]
    exact hrest

-- A sequence is touched by the requests about it only
theorem contents_next_of_ne (hindex : index < bench.sequences.size)
    (hrequest : request.index? ≠ some index) :
    (bench.next request).contents index = bench.contents index := by
  obtain ⟨-, hnext⟩ | ⟨other, _, hother, hnext⟩ | ⟨hnext, -⟩ := next_cases bench request
  · rw [hnext, contents_add, if_neg (Nat.ne_of_lt hindex)]
  · have hne : index ≠ other := by
      rintro rfl
      exact hrequest hother
    rw [hnext, contents_set_of_ne bench hne]
  · rw [hnext]

theorem pushed_append (earlier later : List (Request α)) :
    pushed index (earlier ++ later) = pushed index earlier ++ pushed index later :=
  List.filterMap_append

theorem pushed_self (index : Nat) (value : α) : pushed index [.push index value] = [value] :=
  List.filterMap_cons_some (if_pos rfl)

theorem pushed_of_ne (hrequest : request.index? ≠ some index) : pushed index [request] = [] := by
  cases request with
  | push other value => exact List.filterMap_cons_none (if_neg fun h => hrequest (congrArg some h))
  | _ => rfl

theorem stored_append (earlier later : List (Request α × Reply α)) :
    stored index (earlier ++ later) = stored index earlier ++ stored index later :=
  List.filterMap_append

theorem stored_of_ne (hrequest : request.index? ≠ some index) (reply : Reply α) :
    stored index [(request, reply)] = [] := by
  cases request with
  | push other value =>
    cases reply with
    | length size => exact List.filterMap_cons_none (if_neg fun h => hrequest (congrArg some h))
    | _ => rfl
  | _ => rfl

theorem exchanges_cons (bench : Workbench α) (request : Request α) (rest : List (Request α)) :
    exchanges bench (request :: rest) =
      [(request, (bench.step (ν := Empty) request).2.1)] ++ exchanges (bench.next request) rest := by
  simp only [exchanges, run_cons]
  rfl

theorem exchanges_append (bench : Workbench α) (earlier later : List (Request α)) :
    exchanges bench (earlier ++ later) =
      exchanges bench earlier ++ exchanges (bench.after earlier) later := by
  induction earlier generalizing bench with
  | nil => rfl
  | cons request rest ih =>
    rw [List.cons_append, exchanges_cons, exchanges_cons, ih, List.append_assoc]
    rfl

-- A sequence holds what its storage keeps of the values pushed to it
def Holds (bench : Workbench α) (index : Nat) (values : List α) : Prop :=
  bench.contents index = some (bench.storage.kept values).toArray

theorem Holds.push {values : List α} (h : bench.Holds index values)
    (hstorage : bench.storage.BuiltIn) (value : α) :
    (bench.next (.push index value)).Holds index (values ++ [value]) ∧
      bench.storage.kept values ++
          stored index [(.push index value, (bench.step (ν := Empty) (.push index value)).2.1)] =
        bench.storage.kept (values ++ [value]) := by
  unfold Holds
  rw [next_storage]
  unfold next
  cases hroom : bench.storage.refusalAfter values.length with
  | none =>
    rw [step_push_of_ok h (Storage.room_kept_of_none hstorage hroom value),
      Storage.kept_concat_of_none hroom]
    refine ⟨?_, congrArg _ (List.filterMap_cons_some (if_pos rfl))⟩
    rw [contents_set_self bench h, List.push_toArray]
  | some error =>
    rw [step_push_of_error h (Storage.room_kept_of_some hstorage hroom value),
      Storage.kept_concat_of_some hroom]
    exact ⟨h, List.append_nil _⟩

-- Any request that does not take the sequence away leaves it with what has been pushed to it, and
-- of a push to it exactly what is answered with a length is kept
theorem Holds.step {values : List α} (h : bench.Holds index values)
    (hstorage : bench.storage.BuiltIn) (hfinish : request ≠ .finish index)
    (hdiscard : request ≠ .discard index) :
    (bench.next request).Holds index (values ++ pushed index [request]) ∧
      bench.storage.kept values ++
          stored index [(request, (bench.step (ν := Empty) request).2.1)] =
        bench.storage.kept (values ++ pushed index [request]) := by
  by_cases hrequest : request.index? = some index
  · cases request with
    | new => cases hrequest
    | push other value =>
      cases hrequest
      rw [pushed_self]
      exact h.push hstorage value
    | length other =>
      cases hrequest
      have hnext : bench.next (.length index) = bench := by
        unfold Holds at h
        simp only [Workbench.next, Workbench.step, h]
      have hpushed : values ++ pushed index [.length index] = values := List.append_nil values
      rw [hnext, hpushed]
      exact ⟨h, List.append_nil _⟩
    | finish other =>
      cases hrequest
      exact absurd rfl hfinish
    | discard other =>
      cases hrequest
      exact absurd rfl hdiscard
  · rw [stored_of_ne hrequest, pushed_of_ne hrequest, List.append_nil, List.append_nil]
    unfold Holds at h ⊢
    rw [next_storage, contents_next_of_ne (bench.lt_size_of_contents h) hrequest]
    exact ⟨h, rfl⟩

-- A sequence that is not taken away holds what is pushed to it throughout a run
theorem Holds.after {values : List α} (h : bench.Holds index values)
    (hstorage : bench.storage.BuiltIn) {since : List (Request α)}
    (hfinish : .finish index ∉ since) (hdiscard : .discard index ∉ since) :
    (bench.after since).Holds index (values ++ pushed index since) ∧
      bench.storage.kept values ++ stored index (exchanges bench since) =
        bench.storage.kept (values ++ pushed index since) := by
  induction since generalizing bench values with
  | nil =>
    have hnil : values ++ pushed index [] = values := List.append_nil values
    rw [hnil]
    exact ⟨h, List.append_nil _⟩
  | cons request rest ih =>
    rw [List.mem_cons, not_or] at hfinish hdiscard
    obtain ⟨hnext, hstep⟩ := h.step hstorage (Ne.symm hfinish.1) (Ne.symm hdiscard.1)
    have hrest := ih hnext (by rw [next_storage]; exact hstorage) hfinish.2 hdiscard.2
    have hpushed : values ++ pushed index (request :: rest) =
        values ++ pushed index [request] ++ pushed index rest := by
      rw [List.append_assoc, ← pushed_append]
      rfl
    rw [hpushed]
    refine ⟨hrest.1, ?_⟩
    rw [exchanges_cons, stored_append, ← List.append_assoc, hstep]
    have hkept := hrest.2
    rw [next_storage] at hkept
    exact hkept

-- Before a sequence is opened, nothing is stored under its number
theorem stored_before (hempty : bench.storage.empty = .ok ()) {requests : List (Request α)}
    (hindex : bench.sequences.size + opened requests ≤ index) :
    stored index (exchanges bench requests) = [] := by
  induction requests generalizing bench with
  | nil => rfl
  | cons request rest ih =>
    rw [opened_cons] at hindex
    have hhead : stored index [(request, (bench.step (ν := Empty) request).2.1)] = [] := by
      by_cases hrequest : request.index? = some index
      · have hcontents : bench.contents index = none := by
          cases hitems : bench.contents index with
          | none => rfl
          | some items =>
            have hlt := bench.lt_size_of_contents hitems
            omega
        cases request with
        | push other value =>
          cases hrequest
          simp only [step, hcontents]
          rfl
        | _ => rfl
      · exact stored_of_ne hrequest _
    rw [exchanges_cons, stored_append, hhead]
    refine ih (by rw [next_storage]; exact hempty) ?_
    rw [size_next hempty]
    omega

theorem after_append (bench : Workbench α) (earlier later : List (Request α)) :
    bench.after (earlier ++ later) = (bench.after earlier).after later :=
  List.foldl_append

-- A sequence is opened empty, under the next number
theorem holds_new (bench : Workbench α) (hempty : bench.storage.empty = .ok ()) :
    (bench.next .new).Holds bench.sequences.size [] := by
  unfold Holds
  rw [next_storage, Storage.kept_nil]
  unfold next
  rw [step_new hempty, contents_add, if_pos rfl]

-- What a sequence under construction holds, and what has been stored in it according to the
-- replies, is what its storage keeps of the values pushed since it was opened
theorem Live.holds (hstorage : storage.BuiltIn) {history since : List (Request α)}
    (hlive : Live index history since) :
    ((start storage).after history).Holds index (pushed index since) ∧
      stored index (exchanges (start storage) history) = storage.kept (pushed index since) := by
  obtain ⟨earlier, since, hindex, hfinish, hdiscard⟩ := hlive
  have hempty : (start storage).storage.empty = .ok () := hstorage.empty_eq
  have hsize : ((start storage).after earlier).sequences.size = index := by
    rw [size_after hempty, hindex]
    exact Nat.zero_add index
  have hopened := holds_new ((start storage).after earlier)
    (by rw [after_storage]; exact hempty)
  rw [hsize] at hopened
  have hsince := hopened.after (by rw [next_storage, after_storage]; exact hstorage)
    hfinish hdiscard
  refine ⟨?_, ?_⟩
  · rw [after_append]
    exact hsince.1
  · have hearlier : stored index (exchanges (start storage) earlier) = [] :=
      stored_before hempty (Nat.le_of_eq ((Nat.zero_add _).trans hindex))
    have hkept := hsince.2
    rw [next_storage, after_storage, Storage.kept_nil] at hkept
    rw [exchanges_append, exchanges_cons, stored_append, stored_append, hearlier]
    exact hkept

end Workbench

end ByteGrammar

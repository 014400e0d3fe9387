import ByteGrammar.Proofs.HardError
import ByteGrammar.Proofs.Mirror.Grammar

namespace ByteGrammar

variable {ρ ν α : Type}

-- What a storage has answered instead of giving what it was asked for
def Event.refusal? : Event ν → Option StorageError
  | allocated (.error error) => some error
  | pushed _ (.error error) => some error
  | _ => none

theorem Event.failure?_of_refusal? {event : Event (Note ρ)} {error : StorageError}
    (h : event.refusal? = some error) : event.failure? = some (.storage error) := by
  match event with
  | allocated (.error other) | pushed _ (.error other) =>
    cases h
    rfl

theorem Event.refusal?_of_failure? {event : Event (Note ρ)} {error : StorageError}
    (h : event.failure? = some (.storage error)) (hnote : ∀ mark, event ≠ .note mark) :
    event.refusal? = some error := by
  match event with
  | allocated (.error other) | pushed _ (.error other) =>
    cases h
    rfl
  | note mark => exact absurd rfl (hnote mark)

-- Where each call that has failed with an error is one of a storage, no call of a user has
theorem Event.note_ne_of_refusal {trace : List (Event (Note ρ))} {error : Error}
    (h : ∀ event ∈ trace, event.failure? = some error → event.refusal? ≠ none) (mark : Note ρ)
    (hmark : .note mark ∈ trace) : (Event.note mark).failure? ≠ some error :=
  fun hfails => h _ hmark hfails rfl

namespace Storage

-- Takes whatever the other takes
structure Roomier (storage other : Storage α) : Prop where
  empty : storage.empty = .ok () → other.empty = .ok ()
  room : ∀ items value, storage.room items value = .ok () → other.room items value = .ok ()

-- The same storage, but for a limit that may be greater
inductive Raised : Storage α → Storage α → Prop
  | limit (less more : Nat) (hless : less ≤ more) : Raised (bounded less) (bounded more)
  | same (storage : Storage α) : Raised storage storage

-- The part of a trace in which a storage does not give what it is asked for
inductive Refuses (storage : Storage α) : List (Event ν) → Prop
  | allocate (error : StorageError) (hempty : storage.empty = .error error) :
      Refuses storage [.allocated (.error error)]
  | push (items : Array α) (value : α) (error : StorageError)
      (hroom : storage.room items value = .error error) :
      Refuses storage (.pushed items.size (.error error) :: storage.refusal)

theorem allocate_eq_of_error {storage : Storage α} {error : StorageError}
    (h : storage.empty = .error error) : (storage.allocate : Run ν (Array α)) =
      (Run.raise (.storage error)).after [.allocated (.error error)] := by
  unfold allocate
  rw [h]
  rfl

theorem push_eq_of_error {storage : Storage α} {items : Array α} {value : α}
    {error : StorageError} (h : storage.room items value = .error error) :
    (storage.push items value : Run ν (Array α)) =
      (Run.raise (.storage error)).after
        (.pushed items.size (.error error) :: storage.refusal) := by
  unfold push
  rw [h]
  rfl

theorem roomier_heap (storage : Storage α) : storage.Roomier heap :=
  ⟨fun _ => rfl, fun _ _ _ => rfl⟩

theorem Raised.roomier {storage other : Storage α} (h : Raised storage other) :
    storage.Roomier other := by
  cases h with
  | same => exact ⟨id, fun _ _ => id⟩
  | limit less more hless =>
    refine ⟨fun _ => rfl, fun items value hroom => ?_⟩
    have hsize : items.size < less := by
      by_contra hfull
      simp [room, hfull] at hroom
    exact if_pos (by omega)

theorem Refuses.exists_call {storage : Storage α} {piece : List (Event ν)}
    (h : storage.Refuses piece) :
    ∃ call own error, piece = call :: own ∧ call.refusal? = some error := by
  cases h with
  | allocate error hempty => exact ⟨_, _, error, rfl, rfl⟩
  | push items value error hroom => exact ⟨_, _, error, rfl, rfl⟩

-- Of the storages of the library, only a bounded one refuses with a limit, which is its own
theorem Refuses.eq_of_limitExceeded {storage : Storage α} {call : Event ν} {own : List (Event ν)}
    {limit : Nat} (h : storage.Refuses (call :: own)) (hbuiltIn : storage.BuiltIn)
    (hcall : call.refusal? = some (.limitExceeded limit)) :
    storage = .bounded limit ∧ own = [.sequenceFull limit] := by
  cases storage with
  | custom empty room => exact False.elim hbuiltIn
  | bounded other =>
    cases h with
    | allocate error hempty => cases hempty
    | push items value error hroom =>
      cases hcall
      simp only [room] at hroom
      split at hroom
      · cases hroom
      · cases hroom
        exact ⟨rfl, rfl⟩
  | heap | arena | fullArena =>
    cases h with
    | allocate error hempty => cases hempty
    | push items value error hroom =>
      cases hcall
      cases hroom

end Storage

-- The same event, which is no refusal, but for the grammar that is entered
inductive Event.Replaced (related : Grammar ρ → Grammar ρ → Prop) :
    Event (Note ρ) → Event (Note ρ) → Prop
  | entered (grammar other : Grammar ρ) (input : Bytes) (hrelated : related grammar other) :
      Replaced related (.note (.entered grammar input)) (.note (.entered other input))
  | same (event : Event (Note ρ)) (hentry : event.entered? = none)
      (hrefusal : event.refusal? = none) :
      Replaced related event event

theorem Event.refusal?_eq_none_of_mem {related : Grammar ρ → Grammar ρ → Prop}
    {trace later : List (Event (Note ρ))} {event : Event (Note ρ)}
    (h : List.Forall₂ (Event.Replaced related) trace later) (hevent : event ∈ trace) :
    event.refusal? = none := by
  induction h with
  | nil => cases hevent
  | cons hfirst _ ih =>
    rcases List.mem_cons.mp hevent with rfl | hevent
    · cases hfirst with
      | entered => rfl
      | same _ _ hrefusal => exact hrefusal
    · exact ih hevent

namespace Grammar

variable {rules others : ρ → Grammar ρ} {whole : Grammar ρ}
  {related : Grammar ρ → Grammar ρ → Prop} {storages : Storage Value → Storage Value → Prop}

-- A storage of what is reached does not give what it is asked for
def Refused (rules : ρ → Grammar ρ) (whole : Grammar ρ) (piece : List (Event (Note ρ))) : Prop :=
  ∃ part storage, Reaches rules whole part ∧ part.storage? = some storage ∧ storage.Refuses piece

-- Roomier storages do not change a parse until one of the others refuses
def relief (whole : Grammar ρ) (hrules : ∀ name, related (rules name) (others name))
    (halike : ∀ grammar other, related grammar other → Alike related storages Eq grammar other)
    (hroomier : ∀ storage other, storages storage other → storage.Roomier other) :
    Simulation rules others whole where
  more := []
  excuse := Refused rules whole
  traces := List.Forall₂ (Event.Replaced related)
  traces_nil := .nil
  traces_append hfirst hlater := List.rel_append hfirst hlater
  traces_moved h := by
    cases h <;> try rw [List.append_nil]
    all_goals exact .cons (.same _ rfl rfl) .nil
  values := Eq
  storages := storages
  related := related
  congruence := Value.congruence_eq
  related_rule name _ := hrules name
  alike _ := halike _ _
  enter input _ hrelated := by
    rw [List.append_nil]
    exact .cons (.entered _ _ input hrelated) .nil
  enough _ _ := .inr (.inl rfl)
  traces_note h := by
    obtain rfl := h.eq
    cases h <;> exact .cons (.same _ rfl rfl) .nil
  allocate := by
    intro part storage other hreach hpart hstorages
    cases hempty : storage.empty with
    | ok _ =>
      apply Parser.allocate_mirrored
      · rw [hempty, (hroomier storage other hstorages).empty hempty]
      · rw [hempty]
        exact .cons (.same _ rfl rfl) .nil
    | error error =>
      have hrefused : Refused rules whole [.allocated (.error error)] :=
        ⟨part, storage, hreach, hpart, .allocate error hempty⟩
      rw [Storage.allocate_eq_of_error hempty]
      exact .excused hrefused _ _
  push := by
    intro part storage other items others value another hreach hpart hstorages hitems hvalue
    cases hroom : storage.room items value with
    | ok _ =>
      have hother := (hroomier storage other hstorages).room items value hroom
      obtain rfl : items = others := Array.toList_inj.mp (List.forall₂_eq_eq_eq ▸ hitems)
      obtain rfl : value = another := hvalue
      apply Parser.push_mirrored hitems rfl
      · rw [hroom, hother]
      · rw [hroom]
        exact .cons (.same _ rfl rfl) .nil
      · intro error hfull
        rw [hroom] at hfull
        cases hfull
    | error error =>
      have hrefused : Refused rules whole (.pushed items.size (.error error) :: storage.refusal) :=
        ⟨part, storage, hreach, hpart, .push items value error hroom⟩
      rw [Storage.push_eq_of_error hroom]
      exact .excused hrefused _ _
  consult input _ _ := by
    apply consulting_mirrored_self rfl fun _ => rfl
    exact fun _ => .cons (.same _ rfl rfl) .nil

-- A parse with other storages is the same parse up to a refusal
theorem relieved_or_refused (related : Grammar ρ → Grammar ρ → Prop)
    (storages : Storage Value → Storage Value → Prop) {depth : Nat} {grammar other : Grammar ρ}
    {input : Bytes} {trace : List (Event (Note ρ))} {result : Except Error (Outcome Value)}
    (hrules : ∀ name, related (rules name) (others name)) (hrelated : related grammar other)
    (halike : ∀ grammar other, related grammar other → Alike related storages Eq grammar other)
    (hroomier : ∀ storage other, storages storage other → storage.Roomier other)
    (h : parser rules depth grammar input = .ended trace result) :
    (∃ piece, piece <:+: trace ∧ Refused rules grammar piece) ∨
    ∃ later, parser others depth other input = .ended later result ∧
      List.Forall₂ (Event.Replaced related) trace later := by
  have hmirrored := parser_mirrored (relief grammar hrules halike hroomier) depth
    (.refl grammar) hrelated input trace result h
  rcases hmirrored with hexcused | ⟨later, answer, hlater, htraces, hanswer⟩
  · exact .inl hexcused
  · have hsame : result = answer := (hanswer.imp fun _ _ => Outcome.Moved.eq).eq
    have hinput : parser others depth other (input ++ []) = .ended later answer := hlater
    rw [List.append_nil] at hinput
    exact .inr ⟨later, hsame ▸ hinput, htraces⟩

-- The call in a refusal has failed with the error of a storage
theorem Refused.exists_call {piece trace : List (Event (Note ρ))} (h : Refused rules whole piece)
    (hpiece : piece <:+: trace) :
    ∃ earlier call own later error, trace = earlier ++ call :: (own ++ later) ∧
      piece = call :: own ∧ call.refusal? = some error := by
  obtain ⟨part, storage, -, -, hrefuses⟩ := h
  obtain ⟨call, own, error, rfl, hcall⟩ := hrefuses.exists_call
  obtain ⟨earlier, later, rfl⟩ := hpiece
  exact ⟨earlier, call, own, later, error, by simp, rfl, hcall⟩

theorem Refused.error_of_parses {depth : Nat} {grammar : Grammar ρ} {input : Bytes}
    {piece trace : List (Event (Note ρ))} {result : Except Error (Outcome Value)}
    (hrefused : Refused rules grammar piece) (hpiece : piece <:+: trace)
    (h : parser rules depth grammar input = .ended trace result) :
    ∃ error, result = .error (.storage error) := by
  obtain ⟨earlier, call, own, later, error, rfl, -, hcall⟩ := hrefused.exists_call hpiece
  exact ⟨error, (eq_of_failed_call h (Event.failure?_of_refusal? hcall)).1⟩

end Grammar

end ByteGrammar

import ByteGrammar.Proofs.HardError
import ByteGrammar.Proofs.Mirror.Relief

namespace ByteGrammar

variable {ρ : Type}

namespace Grammar

mutual

-- The same grammar with its storages on the heap
def onHeap : Grammar ρ → Grammar ρ
  | literal expected => literal expected
  | anyByte => anyByte
  | byte expected => byte expected
  | satisfy test => satisfy test
  | atEnd => atEnd
  | sequence parts => sequence (allOnHeap parts)
  | both first second => both first.onHeap second.onHeap
  | choice arms => choice (allOnHeap arms)
  | orElse first second => orElse first.onHeap second.onHeap
  | map label f body => map label f body.onHeap
  | refine label f body => refine label f body.onHeap
  | optional body => optional body.onHeap
  | notFollowedBy body => notFollowedBy body.onHeap
  | followedBy body => followedBy body.onHeap
  | between opening body closing => between opening.onHeap body.onHeap closing.onHeap
  | foldMany init combine body => foldMany init combine body.onHeap
  | foldMany1 init combine body => foldMany1 init combine body.onHeap
  | many _ body => many .heap body.onHeap
  | many1 _ body => many1 .heap body.onHeap
  | delay body => delay body.onHeap
  | rule name => rule name
  | group body => group body.onHeap
  | probe label body => probe label body.onHeap
  | primitive given => primitive given

def allOnHeap : List (Grammar ρ) → List (Grammar ρ)
  | [] => []
  | part :: rest => part.onHeap :: allOnHeap rest

end

-- The same grammar, but for limits that may be greater
inductive LimitsRaised : Grammar ρ → Grammar ρ → Prop
  | of_alike (grammar other : Grammar ρ)
      (halike : Alike LimitsRaised Storage.Raised Eq grammar other) : LimitsRaised grammar other

theorem LimitsRaised.alike {grammar other : Grammar ρ} (h : LimitsRaised grammar other) :
    Alike LimitsRaised Storage.Raised Eq grammar other := by
  obtain ⟨_, _, halike⟩ := h
  exact halike

theorem forall₂_allOnHeap (parts : List (Grammar ρ)) :
    List.Forall₂ (fun part other => other = part.onHeap) parts (allOnHeap parts) := by
  induction parts with
  | nil => exact .nil
  | cons part rest ih => exact .cons rfl ih

theorem alike_onHeap (grammar : Grammar ρ) :
    Alike (fun part other => other = part.onHeap) Storage.Roomier Eq grammar grammar.onHeap := by
  have hanswer (answer : Except Error Value) : SameAnswer Eq answer answer :=
    .of_eq (fun _ => rfl) answer
  cases grammar with
  | sequence parts => exact .sequence _ _ (forall₂_allOnHeap parts)
  | choice arms => exact .choice _ _ (forall₂_allOnHeap arms)
  | map label f body => exact .map _ _ _ _ _ (fun _ _ h => congrArg f h) rfl
  | refine label f body => exact .refine _ _ _ _ _ (fun value _ h => h ▸ hanswer (f value)) rfl
  | foldMany init combine body =>
    exact .foldMany _ _ _ _ _ _ (hanswer init) (SameAnswer.combine combine) rfl
  | foldMany1 init combine body =>
    exact .foldMany1 _ _ _ _ _ _ (hanswer init) (SameAnswer.combine combine) rfl
  | many storage body => exact .many _ _ _ _ storage.roomier_heap rfl
  | many1 storage body => exact .many1 _ _ _ _ storage.roomier_heap rfl
  | _ => constructor <;> rfl

end Grammar

-- The same event of a parse on the heap
def Event.onHeap : Event (Note ρ) → Event (Note ρ)
  | note (.entered grammar input) => note (.entered grammar.onHeap input)
  | event => event

theorem Event.Replaced.onHeap {event other : Event (Note ρ)}
    (h : Event.Replaced (fun part another => another = part.onHeap) event other) :
    event.onHeap = other := by
  cases h with
  | entered grammar _ input hrelated => exact hrelated ▸ rfl
  | same event hentry hrefusal =>
    match event with
    | .note (.entered grammar input) => cases hentry
    | .note (.tested _) | .note (.called _ _) | .note (.seeded _) | .note (.combined _ _ _)
    | .note (.consulted _) | .foldStopped _ _ | .foldRejected _ | .sequenceFull _
    | .sequenceFinished _ | .building _ | .allocated _ | .pushed _ _ | .raised _
    | .reachedEnd => rfl

theorem Event.map_onHeap {trace later : List (Event (Note ρ))}
    (h : List.Forall₂ (Event.Replaced fun part another => another = part.onHeap) trace later) :
    trace.map Event.onHeap = later := by
  induction h with
  | nil => rfl
  | cons hevent _ ih => rw [List.map_cons, hevent.onHeap, ih]

namespace Grammar

variable {rules others : ρ → Grammar ρ}

-- That a bounded sequence is full is the last that happens in a parse, but for the error
theorem sequenceFull_last {depth : Nat} {grammar : Grammar ρ} {input : Bytes}
    {earlier later : List (Event (Note ρ))} {limit : Nat} {result : Except Error (Outcome Value)}
    (h : parser rules depth grammar input =
      .ended (earlier ++ .sequenceFull limit :: later) result) :
    result = .error (.storage (.limitExceeded limit)) ∧
      later = [.raised (.storage (.limitExceeded limit))] := by
  have hobeys := parser_obeys_raiseLaw rules depth grammar input
  rw [h] at hobeys
  cases result with
  | ok outcome => exact False.elim (hobeys.1 (.sequenceFull limit) (by simp))
  | error last =>
    obtain ⟨calm, raise, hsplit, hcalm, call, own, _, hfails, hown⟩ := hobeys
    have hearlier : .sequenceFull limit ∉ calm := fun hmem => hcalm _ hmem
    have hcall : .sequenceFull limit ≠ call := by
      rintro rfl
      cases hfails
    have hmem : .sequenceFull limit ∈ calm ++ call :: (own ++ [.raised last]) := hsplit ▸ by simp
    cases hown with
    | nothing _ | reachedEnd _ => simp [hearlier, hcall] at hmem
    | sequenceFull size other =>
      cases hfails
      have hbefore : .sequenceFull limit ∉
          calm ++ [.pushed size (.error (.limitExceeded other))] := by simp [hearlier]
      have hsplits : calm ++ [.pushed size (.error (.limitExceeded other))] ++
          .sequenceFull other :: [.raised (.storage (.limitExceeded other))] =
          earlier ++ .sequenceFull limit :: later := by simp [hsplit]
      obtain ⟨-, hlimit, hlater⟩ := (List.append_cons_inj_of_notMem hbefore (by simp)).mp hsplits
      cases hlimit
      exact ⟨rfl, hlater.symm⟩

-- The parse on the heap is the same up to a refusal
theorem onHeap_or_refused {depth : Nat} {grammar : Grammar ρ} {input : Bytes}
    {trace : List (Event (Note ρ))} {result : Except Error (Outcome Value)}
    (h : parser rules depth grammar input = .ended trace result) :
    (∃ piece, piece <:+: trace ∧ Refused rules grammar piece) ∨
    parser (fun name => (rules name).onHeap) depth grammar.onHeap input =
        .ended (trace.map Event.onHeap) result ∧
      ∀ event ∈ trace, event.refusal? = none := by
  have hrelieved := relieved_or_refused (fun part other => other = part.onHeap) Storage.Roomier
    (fun _ => rfl) rfl (fun part _ hother => hother ▸ alike_onHeap part)
    (fun _ _ hroomier => hroomier) h
  rcases hrelieved with hrefused | ⟨later, hlater, hsame⟩
  · exact .inl hrefused
  · exact .inr ⟨Event.map_onHeap hsame ▸ hlater, fun _ => Event.refusal?_eq_none_of_mem hsame⟩

-- Where no call of the user's code has failed with the limit, a bounded storage has
theorem bounded_of_limitExceeded {depth : Nat} {grammar : Grammar ρ} {input : Bytes}
    {trace : List (Event (Note ρ))} {limit : Nat}
    (h : parser rules depth grammar input =
      .ended trace (.error (.storage (.limitExceeded limit))))
    (hbuiltIn : ∀ part storage, Reaches rules grammar part → part.storage? = some storage →
      storage.BuiltIn)
    (hnotes : ∀ mark, .note mark ∈ trace →
      (Event.note mark).failure? ≠ some (.storage (.limitExceeded limit))) :
    (∃ part, Reaches rules grammar part ∧ part.storage? = some (.bounded limit)) ∧
    ∃ earlier, trace =
      earlier ++ [.sequenceFull limit, .raised (.storage (.limitExceeded limit))] := by
  rcases onHeap_or_refused h with ⟨piece, hpiece, hrefused⟩ | ⟨-, hnone⟩
  · obtain ⟨earlier, call, own, later, error, rfl, rfl, hcall⟩ := hrefused.exists_call hpiece
    cases (eq_of_failed_call h (Event.failure?_of_refusal? hcall)).1
    obtain ⟨part, storage, hreach, hpart, hrefuses⟩ := hrefused
    obtain ⟨rfl, rfl⟩ := hrefuses.eq_of_limitExceeded (hbuiltIn part storage hreach hpart) hcall
    rw [List.append_cons, List.singleton_append] at h ⊢
    obtain ⟨-, rfl⟩ := sequenceFull_last h
    exact ⟨⟨part, hreach, hpart⟩, earlier ++ [call], rfl⟩
  · obtain ⟨call, hcall, hfails⟩ := exists_failed_call h
    have huser : ∀ mark, call ≠ .note mark := by
      rintro mark rfl
      exact hnotes mark hcall hfails
    have hrefusal := Event.refusal?_of_failure? hfails huser
    rw [hnone call hcall] at hrefusal
    cases hrefusal

-- A storage decides nothing but whether it refuses. A parse that has no error of a storage is the
-- same on the heap, event by event, and the same with greater limits. The error of a limit that no
-- user code has raised comes from a bounded storage with that limit, and is announced by the event
-- that it is full, which comes last in a parse and in no parse with another result.
theorem refuses_or_same_on_heap {depth : Nat} {grammar : Grammar ρ} {input : Bytes}
    {trace : List (Event (Note ρ))} {result : Except Error (Outcome Value)}
    (h : parser rules depth grammar input = .ended trace result) :
    ((∀ error, result ≠ .error (.storage error)) →
      parser (fun name => (rules name).onHeap) depth grammar.onHeap input =
        .ended (trace.map Event.onHeap) result) ∧
    (∀ limit,
      (∀ part storage, Reaches rules grammar part → part.storage? = some storage →
        storage.BuiltIn) →
      (∀ mark, .note mark ∈ trace →
        (Event.note mark).failure? ≠ some (.storage (.limitExceeded limit))) →
      result = .error (.storage (.limitExceeded limit)) →
      (∃ part, Reaches rules grammar part ∧ part.storage? = some (.bounded limit)) ∧
      ∃ earlier, trace =
        earlier ++ [.sequenceFull limit, .raised (.storage (.limitExceeded limit))]) ∧
    (∀ earlier limit later, trace = earlier ++ .sequenceFull limit :: later →
      result = .error (.storage (.limitExceeded limit)) ∧
      later = [.raised (.storage (.limitExceeded limit))]) ∧
    ∀ (others : ρ → Grammar ρ) (other : Grammar ρ),
      (∀ name, LimitsRaised (rules name) (others name)) → LimitsRaised grammar other →
      (∀ error, result ≠ .error (.storage error)) →
      ∃ later, parser others depth other input = .ended later result := by
  refine ⟨?_, ?_, ?_, ?_⟩
  · intro hresult
    rcases onHeap_or_refused h with ⟨piece, hpiece, hrefused⟩ | ⟨hheap, -⟩
    · obtain ⟨error, herror⟩ := hrefused.error_of_parses hpiece h
      exact absurd herror (hresult error)
    · exact hheap
  · rintro limit hbuiltIn hnotes rfl
    exact bounded_of_limitExceeded h hbuiltIn hnotes
  · rintro earlier limit later rfl
    exact sequenceFull_last h
  · intro others other hrules hother hresult
    have hrelieved := relieved_or_refused LimitsRaised Storage.Raised hrules hother
      (fun _ _ hraised => hraised.alike) (fun _ _ hraised => hraised.roomier) h
    rcases hrelieved with ⟨piece, hpiece, hrefused⟩ | ⟨later, hlater, -⟩
    · obtain ⟨error, herror⟩ := hrefused.error_of_parses hpiece h
      exact absurd herror (hresult error)
    · exact ⟨later, hlater⟩

-- Parentheses around two rows at most, or one byte that is no parenthesis
def rows : Unit → Grammar Unit := fun _ =>
  .choice [.between (.byte 40) (.many (.bounded 2) (.rule ())) (.byte 41), .satisfy (41 < ·)]

-- Any number of rows, after a look at the first that is thrown away
def table : Grammar Unit :=
  .both (.optional (.followedBy (.rule ()))) (.many .arena (.rule ()))

-- "(1)2", and "(123)", where the third element is refused in the look ahead
theorem refuses_or_same_on_heap_table :
    (∃ trace value, parser rows 12 table [40, 49, 41, 50] =
        .ended trace (.ok (.matched value [])) ∧
      parser (fun name => (rows name).onHeap) 12 table.onHeap [40, 49, 41, 50] =
        .ended (trace.map Event.onHeap) (.ok (.matched value []))) ∧
    ∃ earlier, parser rows 12 table [40, 49, 50, 51, 41] =
        .ended (earlier ++ [.sequenceFull 2, .raised (.storage (.limitExceeded 2))])
          (.error (.storage (.limitExceeded 2))) ∧
      ∃ part, Reaches rows table part ∧ part.storage? = some (.bounded 2) := by
  constructor
  · have h : parser rows 12 table [40, 49, 41, 50] = .ended _ (.ok (.matched _ [])) := rfl
    exact ⟨_, _, h, (refuses_or_same_on_heap h).1 nofun⟩
  · have h : parser rows 12 table [40, 49, 50, 51, 41] =
      .ended _ (.error (.storage (.limitExceeded 2))) := rfl
    have hbuiltIn : ∀ part storage, Reaches rows table part → part.storage? = some storage →
        storage.BuiltIn := by
      intro part storage hpart hstorage
      have hmem := hpart.mem_of_closed [table, .optional (.followedBy (.rule ())),
        .followedBy (.rule ()), .rule (), rows (),
        .between (.byte 40) (.many (.bounded 2) (.rule ())) (.byte 41), .byte 40,
        .many (.bounded 2) (.rule ()), .byte 41, .satisfy (41 < ·), .many .arena (.rule ())]
        (by simp [table, rows, parts]) (by simp)
      simp only [table, rows, List.mem_cons, List.not_mem_nil, or_false] at hmem
      rcases hmem with rfl | rfl | rfl | rfl | rfl | rfl | rfl | rfl | rfl | rfl | rfl <;>
        cases hstorage <;> trivial
    have hlast := (refuses_or_same_on_heap h).2.1 2 hbuiltIn
      (Event.note_ne_of_refusal (by decide)) rfl
    obtain ⟨hpart, earlier, htrace⟩ := hlast
    exact ⟨earlier, htrace ▸ h, hpart⟩

end Grammar

end ByteGrammar

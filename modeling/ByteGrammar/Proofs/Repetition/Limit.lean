import ByteGrammar.Proofs.FoldMeaning
import ByteGrammar.Proofs.Repetition.Trace

namespace ByteGrammar.Parser

variable {ν α γ : Type} {inner : Parser ν α} {input : Bytes} {limit count rounds : Nat}
  {items : Array α} {closing : List (Event ν)} {outcome : Outcome (Array α)} {iterations : Nat}

-- The first so many runs of a parser on its own tails all match, whatever comes after them
def MatchesInARow (inner : Parser ν α) (count : Nat) (input : Bytes) : Prop :=
  ∃ values last, values.length = count ∧ Rounds inner input values last

theorem matchesInARow_zero : MatchesInARow inner 0 input :=
  ⟨[], input, rfl, .none input⟩

theorem matchesInARow_succ_iff :
    MatchesInARow inner (count + 1) input ↔
      ∃ value tail, (inner input).Gives (.ok (.matched value tail)) ∧
        MatchesInARow inner count tail := by
  constructor
  · rintro ⟨values, last, hlength, hrounds⟩
    cases hrounds with
    | none => cases hlength
    | next _ value tail values _ hmatch hrest =>
      exact ⟨value, tail, hmatch, values, last, by simpa using hlength, hrest⟩
  · rintro ⟨value, tail, hmatch, values, last, rfl, hrest⟩
    exact ⟨value :: values, last, rfl, .next _ _ _ _ _ hmatch hrest⟩

-- A push to a bounded sequence, below the limit and at it

theorem push_bounded_of_lt (h : items.size < limit) (value : α) :
    ((Storage.bounded limit).push items value : Run ν (Array α)) = Storage.heap.push items value := by
  simp [Storage.push, Storage.room, h]

theorem push_bounded_of_eq (h : items.size = limit) (value : α) :
    ((Storage.bounded limit).push items value : Run ν (Array α)).Gives
      (.error (.storage (.limitExceeded limit))) := by
  simp [Storage.push, Storage.room, h, Run.report, Run.raise]

theorem push_heap_eq (items : Array α) (value : α) :
    (Storage.heap.push items value : Run ν (Array α)) =
      .ended [.pushed items.size (.ok ())] (.ok (items.push value)) := rfl

-- A step of a loop into a bounded sequence. A fold is made of such steps, and its one-or-more form
-- begins with one that is closed in its own way.
def boundedStep (inner : Parser ν α) (limit : Nat) (closing : List (Event ν))
    (outcome : Outcome (Array α)) (rounds iterations : Nat) :
    Array α → Bytes → Run ν (Outcome (Array α)) :=
  loopStep inner (Storage.bounded limit).push closing outcome
    (foldLoop inner (Storage.bounded limit).push rounds iterations)

-- With room for the value of a match, the loop goes on

theorem push_bounded_bind_of_lt (h : items.size < limit) (value : α)
    (next : Array α → Run ν (Outcome (Array α))) :
    (Storage.bounded limit).push items value >>= next =
      (next (items.push value)).after [.pushed items.size (.ok ())] := by
  rw [push_bounded_of_lt h, push_heap_eq, Run.ok_bind]

theorem boundedStep_of_match {own : List (Event ν)} {value : α} {tail : Bytes}
    (h : items.size < limit) (hmatch : inner input = .ended own (.ok (.matched value tail))) :
    boundedStep inner limit closing outcome (rounds + 1) iterations items input =
      (boundedStep inner limit [.foldStopped iterations tail] (.matched (items.push value) tail) rounds
        (iterations + 1) (items.push value) tail).after (own ++ [.pushed items.size (.ok ())]) := by
  unfold boundedStep
  rw [loopStep_of_match hmatch, push_bounded_bind_of_lt h, foldLoop_succ, Run.after_after]

-- The loop is cut off where there are matches for more than the room that is left, however the
-- parser goes on after them
theorem boundedStep_refuses (hroom : items.size + count = limit)
    (hmatches : MatchesInARow inner (count + 1) input) (hrounds : count ≤ rounds) :
    (boundedStep inner limit closing outcome rounds iterations items input).Gives
      (.error (.storage (.limitExceeded limit))) := by
  induction count generalizing items input closing outcome rounds iterations with
  | zero =>
    obtain ⟨value, tail, ⟨own, hmatch⟩, -⟩ := matchesInARow_succ_iff.mp hmatches
    unfold boundedStep
    rw [loopStep_of_match hmatch, Run.after_gives_iff, Run.bind_gives_error_iff]
    exact .inl (push_bounded_of_eq hroom value)
  | succ count ih =>
    obtain ⟨value, tail, ⟨own, hmatch⟩, hrest⟩ := matchesInARow_succ_iff.mp hmatches
    obtain ⟨rounds, rfl⟩ : ∃ less, rounds = less + 1 := ⟨rounds - 1, by omega⟩
    have hsize : (items.push value).size + count = limit := by
      rw [Array.size_push]
      omega
    rw [boundedStep_of_match (by omega) hmatch, Run.after_gives_iff]
    exact ih hsize hrest (by omega)

-- With fewer matches the limit is not noticed

theorem exists_room_of_match {value : α} {tail : Bytes}
    (hmatch : (inner input).Gives (.ok (.matched value tail)))
    (hmatches : ¬ MatchesInARow inner (count + 1) input) :
    ∃ less, count = less + 1 ∧ ¬ MatchesInARow inner (less + 1) tail := by
  rw [matchesInARow_succ_iff] at hmatches
  cases count with
  | zero => exact absurd ⟨value, tail, hmatch, matchesInARow_zero⟩ hmatches
  | succ count => exact ⟨count, rfl, fun hrest => hmatches ⟨value, tail, hmatch, hrest⟩⟩

theorem boundedStep_eq_heap (hroom : items.size + count = limit)
    (hmatches : ¬ MatchesInARow inner (count + 1) input) :
    boundedStep inner limit closing outcome rounds iterations items input =
      loopStep inner Storage.heap.push closing outcome
        (foldLoop inner Storage.heap.push rounds iterations) items input := by
  induction rounds generalizing items input closing outcome count iterations with
  | zero =>
    apply loopStep_congr
    intro value tail hmatch
    obtain ⟨count, rfl, -⟩ := exists_room_of_match hmatch hmatches
    rw [push_bounded_of_lt (by omega)]
    rfl
  | succ rounds ih =>
    apply loopStep_congr
    intro value tail hmatch
    obtain ⟨count, rfl, hrest⟩ := exists_room_of_match hmatch hmatches
    have hsize : (items.push value).size + count = limit := by
      rw [Array.size_push]
      omega
    rw [push_bounded_of_lt (by omega), push_heap_eq, Run.ok_bind, Run.ok_bind, foldLoop_succ,
      foldLoop_succ]
    exact congrArg _ (ih hsize hrest)

-- One more round than there is room for is all that a loop makes use of, whether or not it ends
theorem boundedStep_of_le (hroom : items.size + count = limit) (hrounds : count ≤ rounds) :
    boundedStep inner limit closing outcome rounds iterations items input =
      boundedStep inner limit closing outcome count iterations items input := by
  induction count generalizing items input closing outcome rounds iterations with
  | zero =>
    apply loopStep_congr
    intro value tail _
    obtain ⟨calls, hpush⟩ := push_bounded_of_eq (ν := ν) hroom value
    rw [hpush]
    rfl
  | succ count ih =>
    obtain ⟨rounds, rfl⟩ : ∃ less, rounds = less + 1 := ⟨rounds - 1, by omega⟩
    apply loopStep_congr
    intro value tail _
    have hsize : (items.push value).size + count = limit := by
      rw [Array.size_push]
      omega
    rw [push_bounded_bind_of_lt (by omega), push_bounded_bind_of_lt (by omega), foldLoop_succ,
      foldLoop_succ]
    exact congrArg _ (ih hsize (by omega))

-- A loop ends if the runs of its parser end that it can come to
theorem exists_boundedStep_gives (hroom : items.size + count = limit)
    (hinner : ∀ values place, values.length ≤ count → Rounds inner input values place →
      inner place ≠ .unfinished) :
    ∃ result,
      (boundedStep inner limit closing outcome count iterations items input).Gives result := by
  induction count generalizing items input closing outcome iterations with
  | zero =>
    apply exists_loopStep_gives (hinner [] input (Nat.zero_le _) (.none input))
    intro value tail _
    exact ⟨_, Run.bind_gives_error_iff.mpr (.inl (push_bounded_of_eq hroom value))⟩
  | succ count ih =>
    apply exists_loopStep_gives (hinner [] input (Nat.zero_le _) (.none input))
    intro value tail hmatch
    have hsize : (items.push value).size + count = limit := by
      rw [Array.size_push]
      omega
    rw [push_bounded_bind_of_lt (by omega), foldLoop_succ]
    simp only [Run.after_gives_iff]
    apply ih hsize
    intro values place hlength hrounds
    exact hinner (value :: values) place (by simpa using hlength) (.next _ _ _ _ _ hmatch hrounds)

-- A turn takes up room, so there are no more turns than the limit says
theorem Turns.length_le_limit {turns : List (Turn ν α (Array α))} {last : Array α} {stop : Bytes}
    (h : Turns inner (Storage.bounded limit).push items input turns last stop)
    (hsize : items.size ≤ limit) : items.size + turns.length ≤ limit := by
  induction h with
  | none => simpa using hsize
  | next items place turn turns last stop hmatch hcombine hrest ih =>
    have hpush := Storage.eq_push_of_push hcombine
    have hroom : items.size ≠ limit := by
      intro hfull
      have hgives : ((Storage.bounded limit).push items turn.value : Run ν (Array α)).Gives
          (.ok turn.next) := ⟨_, hcombine⟩
      cases hgives.unique (push_bounded_of_eq hfull turn.value)
    rw [hpush, Array.size_push] at ih
    have hlater := ih (by omega)
    rw [List.length_cons]
    omega

-- A repetition into a storage begins with the step of its loop, if it is given a sequence

def finished : Outcome (Array α) → Run ν (Outcome (List α))
  | .matched items tail => do
    let values ← finish items
    pure (.matched values tail)
  | .noMatch => pure .noMatch

theorem refine_finish_apply (parser : Parser ν (Array α)) (input : Bytes) :
    parser.refine finish input = parser input >>= finished := by
  unfold refine
  congr 1
  funext outcome
  cases outcome <;> rfl

theorem many_succ_eq {storage : Storage α} (hempty : storage.empty = .ok ()) (rounds : Nat)
    (inner : Parser ν α) (input : Bytes) : many (rounds + 1) storage inner input =
      (loopStep inner storage.push [.foldStopped 0 input] (.matched #[] input)
        (foldLoop inner storage.push rounds 1) #[] input >>= finished).after
        [.allocated (.ok ())] := by
  rw [many, refine_finish_apply, foldMany_eq_bind, Storage.allocate, hempty]
  simp only [foldLoop_succ, Run.report, Run.pure_eq, Run.ok_bind, Run.after_ended, Run.after_bind,
    List.append_nil]

theorem many1_eq {storage : Storage α} (hempty : storage.empty = .ok ()) (rounds : Nat)
    (inner : Parser ν α) (input : Bytes) : many1 rounds storage inner input =
      (loopStep inner storage.push [.foldRejected input] .noMatch
        (foldLoop inner storage.push rounds 0) #[] input >>= finished).after
        [.allocated (.ok ())] := by
  rw [many1, refine_finish_apply, foldMany1_eq_bind, Storage.allocate, hempty]
  simp only [Run.report, Run.pure_eq, Run.ok_bind, Run.after_ended, Run.after_bind,
    List.append_nil]

theorem many_bounded_eq (rounds : Nat) : many (rounds + 1) (.bounded limit) inner input =
    (boundedStep inner limit [.foldStopped 0 input] (.matched #[] input) rounds 1 #[] input >>=
      finished).after [.allocated (.ok ())] :=
  many_succ_eq rfl rounds inner input

theorem many1_bounded_eq (rounds : Nat) : many1 rounds (.bounded limit) inner input =
    (boundedStep inner limit [.foldRejected input] .noMatch rounds 0 #[] input >>= finished).after
      [.allocated (.ok ())] :=
  many1_eq rfl rounds inner input

theorem size_empty_add (limit : Nat) : (#[] : Array α).size + limit = limit := by simp

-- Within one more round than the limit says, a bounded repetition is through

theorem ends_iff_of_enough {repetition : Nat → Parser ν γ} {enough : Nat}
    (hmore : ∀ rounds more, rounds ≤ more → (repetition rounds).Approximates (repetition more))
    (henough : ∀ rounds, enough ≤ rounds → repetition rounds input = repetition enough input)
    {trace : List (Event ν)} {result : Except Error (Outcome γ)} :
    Ends repetition input trace result ↔ repetition enough input = .ended trace result := by
  constructor
  · rintro ⟨rounds, h⟩
    have happrox := hmore rounds (max rounds enough) (Nat.le_max_left _ _) input
    rw [h, henough _ (Nat.le_max_right _ _)] at happrox
    exact happrox.eq_of_ended
  · exact fun h => ⟨enough, h⟩

theorem many_bounded_ends_iff {trace : List (Event ν)} {result : Except Error (Outcome (List α))} :
    Ends (fun rounds => many rounds (.bounded limit) inner) input trace result ↔
      many (limit + 1) (.bounded limit) inner input = .ended trace result := by
  apply ends_iff_of_enough
  · exact fun _ _ hrounds => (Approximates.refl inner).many _ hrounds
  · intro rounds hrounds
    obtain ⟨rounds, rfl⟩ : ∃ less, rounds = less + 1 := ⟨rounds - 1, by omega⟩
    rw [many_bounded_eq, many_bounded_eq, boundedStep_of_le (size_empty_add limit) (by omega)]

theorem many1_bounded_ends_iff {trace : List (Event ν)}
    {result : Except Error (Outcome (List α))} :
    Ends (fun rounds => many1 rounds (.bounded limit) inner) input trace result ↔
      many1 limit (.bounded limit) inner input = .ended trace result := by
  apply ends_iff_of_enough
  · exact fun _ _ hrounds => (Approximates.refl inner).many1 _ hrounds
  · intro rounds hrounds
    rw [many1_bounded_eq, many1_bounded_eq, boundedStep_of_le (size_empty_add limit) hrounds]

-- What a step gives is what the repetition gives, with its sequence closed

theorem finished_gives_error {run : Run ν (Outcome (Array α))} {error : Error}
    {earlier : List (Event ν)} (h : run.Gives (.error error)) :
    ((run >>= finished).after earlier).Gives (.error error) :=
  Run.after_gives_iff.mpr (Run.bind_gives_error_iff.mpr (.inl h))

theorem exists_finished_gives {run : Run ν (Outcome (Array α))} {earlier : List (Event ν)}
    (h : ∃ result, run.Gives result) : ∃ result, ((run >>= finished).after earlier).Gives result := by
  obtain ⟨result, trace, rfl⟩ := h
  match result with
  | .error error => exact ⟨.error error, _, rfl⟩
  | .ok (.matched items tail) => exact ⟨.ok (.matched items.toList tail), _, rfl⟩
  | .ok .noMatch => exact ⟨.ok .noMatch, _, rfl⟩

theorem many_bounded_gives (hmatches : MatchesInARow inner (limit + 1) input)
    (hrounds : limit ≤ rounds) : (many (rounds + 1) (.bounded limit) inner input).Gives
      (.error (.storage (.limitExceeded limit))) := by
  rw [many_bounded_eq]
  exact finished_gives_error (boundedStep_refuses (size_empty_add limit) hmatches hrounds)

theorem many1_bounded_gives (hmatches : MatchesInARow inner (limit + 1) input)
    (hrounds : limit ≤ rounds) : (many1 rounds (.bounded limit) inner input).Gives
      (.error (.storage (.limitExceeded limit))) := by
  rw [many1_bounded_eq]
  exact finished_gives_error (boundedStep_refuses (size_empty_add limit) hmatches hrounds)

-- Below the limit, each number of rounds gives the same run as on the heap

theorem many_bounded_eq_heap (hmatches : ¬ MatchesInARow inner (limit + 1) input) (rounds : Nat) :
    many rounds (.bounded limit) inner input = many rounds .heap inner input := by
  cases rounds with
  | zero => rfl
  | succ rounds =>
    rw [many_bounded_eq, many_succ_eq rfl, boundedStep_eq_heap (size_empty_add limit) hmatches]

theorem many1_bounded_eq_heap (hmatches : ¬ MatchesInARow inner (limit + 1) input) (rounds : Nat) :
    many1 rounds (.bounded limit) inner input = many1 rounds .heap inner input := by
  rw [many1_bounded_eq, many1_eq rfl, boundedStep_eq_heap (size_empty_add limit) hmatches]

-- The limit of a bounded sequence is an exact cut-off. If the parser matches once more than the
-- limit says, the repetition fails with the limit, whatever the parser does after that. Otherwise it
-- is the repetition on the heap, which may not end. In either case it is through within one round
-- more than the limit says, with a run of the parser for each: there are at most so many turns as
-- the limit says, and one run more in the ending. So it ends if these runs end, also where the
-- parser takes nothing.
theorem bounded_cuts_off (inner : Parser ν α) (limit : Nat) (input : Bytes) :
    (MatchesInARow inner (limit + 1) input →
      (∀ result, EndsWith (fun rounds => many rounds (.bounded limit) inner) input result ↔
        result = .error (.storage (.limitExceeded limit))) ∧
      ∀ result, EndsWith (fun rounds => many1 rounds (.bounded limit) inner) input result ↔
        result = .error (.storage (.limitExceeded limit))) ∧
    (¬ MatchesInARow inner (limit + 1) input →
      (∀ trace result,
        Ends (fun rounds => many rounds (.bounded limit) inner) input trace result ↔
          Ends (fun rounds => many rounds .heap inner) input trace result) ∧
      ∀ trace result,
        Ends (fun rounds => many1 rounds (.bounded limit) inner) input trace result ↔
          Ends (fun rounds => many1 rounds .heap inner) input trace result) ∧
    (∀ trace result,
      (Ends (fun rounds => many rounds (.bounded limit) inner) input trace result ↔
        many (limit + 1) (.bounded limit) inner input = .ended trace result) ∧
      (Ends (fun rounds => many1 rounds (.bounded limit) inner) input trace result ↔
        many1 limit (.bounded limit) inner input = .ended trace result)) ∧
    (∀ turns items stop, Turns inner (Storage.bounded limit).push #[] input turns items stop →
      turns.length ≤ limit) ∧
    ((∀ values place, values.length ≤ limit → Rounds inner input values place →
        inner place ≠ .unfinished) →
      (∃ result, EndsWith (fun rounds => many rounds (.bounded limit) inner) input result) ∧
      ∃ result, EndsWith (fun rounds => many1 rounds (.bounded limit) inner) input result) := by
  refine ⟨?_, ?_, fun _ _ => ⟨many_bounded_ends_iff, many1_bounded_ends_iff⟩, ?_, ?_⟩
  · intro hmatches
    simp only [EndsWith, many_bounded_ends_iff, many1_bounded_ends_iff]
    have hmany := many_bounded_gives hmatches (Nat.le_refl limit)
    have hmany1 := many1_bounded_gives hmatches (Nat.le_refl limit)
    exact ⟨fun result => ⟨fun h => Run.Gives.unique h hmany, fun h => h ▸ hmany⟩,
      fun result => ⟨fun h => Run.Gives.unique h hmany1, fun h => h ▸ hmany1⟩⟩
  · intro hmatches
    simp only [Ends, many_bounded_eq_heap hmatches, many1_bounded_eq_heap hmatches, implies_true,
      and_self]
  · intro turns items stop hturns
    have hlength := hturns.length_le_limit (by simp)
    simpa using hlength
  · intro hinner
    simp only [EndsWith, many_bounded_ends_iff, many1_bounded_ends_iff]
    rw [many_bounded_eq, many1_bounded_eq]
    exact ⟨exists_finished_gives (exists_boundedStep_gives (size_empty_add limit) hinner),
      exists_finished_gives (exists_boundedStep_gives (size_empty_add limit) hinner)⟩

-- A parser that takes nothing, and one that matches as often as the limit says
theorem bounded_cuts_off_succeed :
    MatchesInARow (succeed () : Parser Unit Unit) 3 [97] ∧
    (∀ result,
      EndsWith (fun rounds => many rounds (.bounded 2) (succeed () : Parser Unit Unit)) [97] result ↔
        result = .error (.storage (.limitExceeded 2))) ∧
    (∃ result,
      EndsWith (fun rounds => many1 rounds (.bounded 2) (succeed () : Parser Unit Unit)) [97]
        result) ∧
    ¬ MatchesInARow (byte 97 : Parser Unit UInt8) 3 [97, 97, 98] ∧
    EndsWith (fun rounds => many1 rounds (.bounded 2) (byte 97 : Parser Unit UInt8)) [97, 97, 98]
      (.ok (.matched [97, 97] [98])) := by
  have hmatches : MatchesInARow (succeed () : Parser Unit Unit) 3 [97] := by
    simp [matchesInARow_succ_iff, matchesInARow_zero, succeed]
  have hfewer : ¬ MatchesInARow (byte 97 : Parser Unit UInt8) 3 [97, 97, 98] := by
    simp [matchesInARow_succ_iff, byte]
  have hrefused := (bounded_cuts_off (succeed () : Parser Unit Unit) 2 [97]).1 hmatches
  have hends := (bounded_cuts_off (succeed () : Parser Unit Unit) 2 [97]).2.2.2.2
    fun _ _ _ _ => by simp [succeed]
  have hkept := (bounded_cuts_off (byte 97 : Parser Unit UInt8) 2 [97, 97, 98]).2.1 hfewer
  exact ⟨hmatches, hrefused.1, hends.2, hfewer, _, (hkept.2 _ _).mpr ⟨3, rfl⟩⟩

-- How often a parser is run, counted by marks that its runs leave in the trace

def marks (chosen : ν → Bool) (trace : List (Event ν)) : Nat :=
  trace.countP fun
    | .note mark => chosen mark
    | _ => false

-- Each run of the parser leaves one mark
def MarksRuns (chosen : ν → Bool) (inner : Parser ν α) : Prop :=
  ∀ input trace result, inner input = .ended trace result → marks chosen trace = 1

section Marks

variable {chosen : ν → Bool}

theorem marks_append (first later : List (Event ν)) :
    marks chosen (first ++ later) = marks chosen first + marks chosen later :=
  List.countP_append

theorem marks_push {storage : Storage α} {value : α} {calls : List (Event ν)}
    {result : Except Error (Array α)} (h : storage.push items value = .ended calls result) :
    marks chosen calls = 0 := by
  unfold Storage.push at h
  cases hroom : storage.room items value with
  | ok _ =>
    rw [hroom] at h
    cases h
    rfl
  | error error =>
    rw [hroom] at h
    cases h
    cases storage <;> rfl

theorem Turns.marks_eq {storage : Storage α} {turns : List (Turn ν α (Array α))} {last : Array α}
    {stop : Bytes} (hinner : MarksRuns chosen inner)
    (h : Turns inner storage.push items input turns last stop) :
    marks chosen (turns.flatMap Turn.trace) = turns.length := by
  induction h with
  | none => rfl
  | next items place turn turns last stop hmatch hcombine hrest ih =>
    rw [List.flatMap_cons, marks_append, Turn.trace, marks_append, hinner _ _ _ hmatch,
      marks_push hcombine, ih, List.length_cons]
    omega

theorem Ending.marks_eq {storage : Storage α} {outcome : γ} {ending : List (Event ν)}
    {result : Except Error γ} (hinner : MarksRuns chosen inner) (hclosing : marks chosen closing = 0)
    (h : Ending inner storage.push items input closing outcome ending result) :
    marks chosen ending = 1 := by
  cases h with
  | stopped own hstop => rw [marks_append, hinner _ _ _ hstop, hclosing]
  | failed own error hfail => exact hinner _ _ _ hfail
  | refused own value tail calls error hmatch hrefuse =>
    rw [marks_append, hinner _ _ _ hmatch, marks_push hrefuse]

-- One run for each turn, and one for the ending
theorem Repeats.marks_eq
    {closing : List (Turn ν α (Array α)) → Array α → Bytes → List (Event ν) × Outcome (List α)}
    {trace : List (Event ν)} {result : Except Error (Outcome (List α))}
    (hinner : MarksRuns chosen inner)
    (hclosing : ∀ turns last stop, marks chosen (closing turns last stop).1 = 0)
    (h : Repeats inner (Storage.bounded limit).allocate (Storage.bounded limit).push closing input
      trace result) :
    ∃ turns last stop, Turns inner (Storage.bounded limit).push #[] input turns last stop ∧
      marks chosen trace = turns.length + 1 := by
  rcases h with ⟨_, _, hinit⟩ | ⟨calls, seed, later, _, hinit, turns, last, stop, ending, _, hturns, hending⟩
  · cases hinit
  · cases hinit
    refine ⟨turns, last, stop, hturns, ?_⟩
    rw [marks_append, marks_append, marks_append, hturns.marks_eq hinner,
      hending.marks_eq hinner (hclosing turns last stop)]
    exact Nat.zero_add _

-- A bounded repetition runs its parser once more than the limit says at most
theorem bounded_runs_le (hinner : MarksRuns chosen inner) {trace : List (Event ν)}
    {result : Except Error (Outcome (List α))}
    (h : Ends (fun rounds => many rounds (.bounded limit) inner) input trace result ∨
      Ends (fun rounds => many1 rounds (.bounded limit) inner) input trace result) :
    marks chosen trace ≤ limit + 1 := by
  have hruns : ∃ turns last stop,
      Turns inner (Storage.bounded limit).push #[] input turns last stop ∧
        marks chosen trace = turns.length + 1 := by
    rcases h with h | h
    · exact (many_ends_iff.mp h).marks_eq hinner fun _ _ _ => rfl
    · refine (many1_ends_iff.mp h).marks_eq hinner fun turns last stop => ?_
      cases turns <;> rfl
  obtain ⟨turns, last, stop, hturns, hmarks⟩ := hruns
  have hlength := hturns.length_le_limit (Nat.zero_le _)
  rw [hmarks]
  omega

-- Three runs where the limit is two, the last of them for an element that is refused
example : many 3 (.bounded 2) (fun input => .ended [.note ()] (.ok (.matched () input))) [97] =
    .ended [.allocated (.ok ()), .note (), .pushed 0 (.ok ()), .note (), .pushed 1 (.ok ()), .note (),
        .pushed 2 (.error (.limitExceeded 2)), .sequenceFull 2,
        .raised (.storage (.limitExceeded 2))]
      (.error (.storage (.limitExceeded 2))) := rfl

end Marks

end ByteGrammar.Parser

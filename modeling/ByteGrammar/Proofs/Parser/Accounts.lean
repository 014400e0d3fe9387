import ByteGrammar.Parser.Many

namespace ByteGrammar.Parser

variable {ν α β γ : Type}

def Yields (parser : Parser ν α) (value : α) : Prop :=
  ∃ input trace tail, parser input = .ended trace (.ok (.matched value tail))

-- Whatever a match takes from the input is in its value, in order. The value may account
-- for bytes that were taken before.
def Accounts (parser : Parser ν α) (before : Bytes) (taken : α → Bytes) : Prop :=
  ∀ input trace value tail,
    parser input = .ended trace (.ok (.matched value tail)) → taken value ++ tail = before ++ input

-- The parsers that read bytes themselves

theorem literal_accounts (expected : Bytes) :
    (literal expected : Parser ν Bytes).Accounts [] id := by
  intro input trace value tail h
  unfold literal at h
  split at h
  · next hprefix =>
    cases h
    exact List.prefix_iff_eq_append.mp hprefix
  · split at h
    · cases h
    · cases h

theorem anyByte_accounts : (anyByte : Parser ν UInt8).Accounts [] ([·]) := by
  intro input trace value tail h
  cases input with
  | nil => cases h
  | cons first rest =>
    cases h
    rfl

theorem byte_accounts (expected : UInt8) :
    (byte expected : Parser ν UInt8).Accounts [] ([·]) := by
  intro input trace value tail h
  cases input with
  | nil => cases h
  | cons first rest =>
    simp only [byte, Run.pure_eq, Run.ended.injEq, Except.ok.injEq] at h
    split at h
    · cases h.2
      rfl
    · cases h.2

theorem satisfyRun_accounts (test : UInt8 → Run ν Bool) : (satisfyRun test).Accounts [] ([·]) := by
  intro input trace value tail h
  cases input with
  | nil => cases h
  | cons first rest =>
    obtain ⟨_, _, passed, -, hnext, -⟩ := Run.bind_eq_ok h
    cases passed with
    | false => cases hnext
    | true =>
      cases hnext
      rfl

theorem atEnd_accounts : (atEnd : Parser ν Unit).Accounts [] fun _ => [] := by
  intro input trace value tail h
  cases input with
  | nil =>
    cases h
    rfl
  | cons first rest => cases h

-- Each combinator accounts for what its parts take

theorem Accounts.after {parser : Parser ν α} {taken : α → Bytes} (h : parser.Accounts [] taken)
    (before : Bytes) : parser.Accounts before fun value => before ++ taken value := by
  intro input trace value tail hrun
  rw [List.append_assoc, h input trace value tail hrun]
  rfl

theorem Accounts.andThen {first : Parser ν α} {next : α → Parser ν β} {before : Bytes}
    {mid : α → Bytes} {taken : β → Bytes} (hfirst : first.Accounts before mid)
    (hnext : ∀ value, (next value).Accounts (mid value) taken) :
    (first.andThen next).Accounts before taken := by
  intro input trace value tail h
  obtain ⟨_, _, outcome, hrun, hrest, -⟩ := Run.bind_eq_ok h
  cases outcome with
  | noMatch => cases hrest
  | matched left rest =>
    calc
      taken value ++ tail = mid left ++ rest := hnext left rest _ value tail hrest
      _ = before ++ input := hfirst input _ left rest hrun

theorem Accounts.orElse {first second : Parser ν α} {taken : α → Bytes}
    (hfirst : first.Accounts [] taken) (hsecond : second.Accounts [] taken) :
    (first.orElse second).Accounts [] taken := by
  intro input trace value tail h
  obtain ⟨_, _, outcome, hrun, hrest, -⟩ := Run.bind_eq_ok h
  cases outcome with
  | noMatch => exact hsecond input _ value tail hrest
  | matched left rest =>
    cases hrest
    exact hfirst input _ value tail hrun

-- A function may be asked to keep the bytes only of what it can be given
theorem Accounts.refine {inner : Parser ν α} {f : α → Run ν β} {before : Bytes}
    {taken : α → Bytes} {kept : β → Bytes} (hinner : inner.Accounts before taken)
    (hf : ∀ value calls result, inner.Yields value → f value = .ended calls (.ok result) →
      kept result = taken value) : (inner.refine f).Accounts before kept := by
  intro input trace value tail h
  obtain ⟨_, _, outcome, hrun, hrest, -⟩ := Run.bind_eq_ok h
  cases outcome with
  | noMatch => cases hrest
  | matched left rest =>
    obtain ⟨calls, _, result, hcall, hresult, -⟩ := Run.bind_eq_ok hrest
    cases hresult
    rw [hf left calls value ⟨input, _, tail, hrun⟩ hcall]
    exact hinner input _ left tail hrun

theorem Accounts.map {inner : Parser ν α} {f : α → β} {before : Bytes} {taken : α → Bytes}
    {kept : β → Bytes} (hinner : inner.Accounts before taken)
    (hf : ∀ value, kept (f value) = taken value) : (inner.map f).Accounts before kept := by
  apply hinner.refine
  intro value calls result _ hcall
  cases hcall
  exact hf value

theorem Accounts.both {first : Parser ν α} {second : Parser ν β} {left : α → Bytes}
    {right : β → Bytes} (hfirst : first.Accounts [] left) (hsecond : second.Accounts [] right) :
    (first.both second).Accounts [] fun pair => left pair.1 ++ right pair.2 :=
  hfirst.andThen fun value => (hsecond.after (left value)).map fun _ => rfl

theorem Accounts.sequence {parsers : List (Parser ν α)} {taken : α → Bytes}
    (h : ∀ parser ∈ parsers, parser.Accounts [] taken) :
    (sequence parsers).Accounts [] (List.flatMap taken) := by
  induction parsers with
  | nil =>
    intro input trace value tail hrun
    cases hrun
    rfl
  | cons first rest ih =>
    have hrest := ih fun parser hparser => h parser (List.mem_cons_of_mem _ hparser)
    refine (h first List.mem_cons_self).andThen fun value => (hrest.after (taken value)).map ?_
    intro values
    exact List.flatMap_cons

theorem Accounts.choice {parsers : List (Parser ν α)} {taken : α → Bytes}
    (h : ∀ parser ∈ parsers, parser.Accounts [] taken) : (choice parsers).Accounts [] taken := by
  induction parsers with
  | nil =>
    intro input trace value tail hrun
    cases hrun
  | cons first rest ih =>
    have hrest := ih fun parser hparser => h parser (List.mem_cons_of_mem _ hparser)
    exact (h first List.mem_cons_self).orElse hrest

theorem Accounts.optional {inner : Parser ν α} {taken : α → Bytes}
    (hinner : inner.Accounts [] taken) :
    inner.optional.Accounts [] fun value => value.elim [] taken := by
  intro input trace value tail h
  obtain ⟨_, _, outcome, hrun, hrest, -⟩ := Run.bind_eq_ok h
  cases outcome with
  | noMatch =>
    cases hrest
    rfl
  | matched left rest =>
    cases hrest
    exact hinner input _ left tail hrun

theorem notFollowedBy_accounts (inner : Parser ν α) :
    inner.notFollowedBy.Accounts [] fun _ => [] := by
  intro input trace value tail h
  obtain ⟨_, _, outcome, -, hrest, -⟩ := Run.bind_eq_ok h
  cases outcome with
  | noMatch =>
    cases hrest
    rfl
  | matched left rest => cases hrest

theorem followedBy_accounts (inner : Parser ν α) : inner.followedBy.Accounts [] fun _ => [] := by
  intro input trace value tail h
  obtain ⟨_, _, outcome, -, hrest, -⟩ := Run.bind_eq_ok h
  cases outcome with
  | noMatch => cases hrest
  | matched left rest =>
    cases hrest
    rfl

theorem Accounts.delay {inner : Parser ν α} {taken : α → Bytes}
    (hinner : inner.Accounts [] taken) : inner.delay.Accounts [] taken := by
  intro input trace value tail h
  obtain ⟨_, _, _, -, hrun, -⟩ := Run.bind_eq_ok h
  exact hinner input _ value tail hrun

-- A fold that keeps all bytes: its seed holds none, and a step adds those of the value. This
-- is asked only of accumulators that are `held` and of values that the parser yields.
structure FoldKeeps (inner : Parser ν α) (init : Run ν β) (combine : β → α → Run ν β)
    (held : β → Prop) (taken : α → Bytes) (total : β → Bytes) : Prop where
  seed : ∀ calls seed, init = .ended calls (.ok seed) → held seed ∧ total seed = []
  step : ∀ accumulator value calls next, held accumulator → inner.Yields value →
    combine accumulator value = .ended calls (.ok next) →
    held next ∧ total next = total accumulator ++ taken value

variable {inner : Parser ν α} {init : Run ν β} {combine : β → α → Run ν β} {held : β → Prop}
  {taken : α → Bytes} {total : β → Bytes}

theorem FoldKeeps.foldRounds (hkeeps : FoldKeeps inner init combine held taken total)
    (hinner : inner.Accounts [] taken) {rounds iterations : Nat} {accumulator last : β}
    {input tail : Bytes} {trace : List (Event ν)} (hheld : held accumulator)
    (h : Parser.foldRounds inner combine rounds iterations [] accumulator input =
      .ended trace (.ok (last, tail))) : total last ++ tail = total accumulator ++ input := by
  induction rounds generalizing iterations accumulator input trace with
  | zero => cases h
  | succ rounds ih =>
    rw [foldRounds_succ] at h
    obtain ⟨_, _, outcome, hrun, hrest, -⟩ := Run.bind_eq_ok h
    cases outcome with
    | noMatch =>
      cases hrest
      rfl
    | matched value rest =>
      obtain ⟨_, _, next, hcombine, hrest, -⟩ := Run.bind_eq_ok hrest
      obtain ⟨hnext, htotal⟩ :=
        hkeeps.step accumulator value _ next hheld ⟨_, _, _, hrun⟩ hcombine
      calc
        total last ++ tail = total next ++ rest := ih hnext hrest
        _ = total accumulator ++ (taken value ++ rest) := by rw [htotal, List.append_assoc]
        _ = total accumulator ++ input := by rw [hinner input _ value rest hrun]; rfl

theorem FoldKeeps.foldMany (hkeeps : FoldKeeps inner init combine held taken total)
    (hinner : inner.Accounts [] taken) (rounds : Nat) :
    (Parser.foldMany rounds inner init combine).Accounts [] total := by
  intro input trace value tail h
  obtain ⟨_, _, seed, hinit, hrest, -⟩ := Run.bind_eq_ok h
  obtain ⟨_, _, ⟨last, final⟩, hrounds, hlast, -⟩ := Run.bind_eq_ok hrest
  cases hlast
  obtain ⟨hheld, htotal⟩ := hkeeps.seed _ seed hinit
  calc
    total value ++ tail = total seed ++ input := hkeeps.foldRounds hinner hheld hrounds
    _ = [] ++ input := by rw [htotal]

-- The seed is combined with the first value once, before the loop
theorem FoldKeeps.foldMany1 (hkeeps : FoldKeeps inner init combine held taken total)
    (hinner : inner.Accounts [] taken) (rounds : Nat) :
    (Parser.foldMany1 rounds inner init combine).Accounts [] total := by
  intro input trace value tail h
  obtain ⟨_, _, seed, hinit, hrest, -⟩ := Run.bind_eq_ok h
  obtain ⟨_, _, outcome, hfirst, hrest, -⟩ := Run.bind_eq_ok hrest
  cases outcome with
  | noMatch => cases hrest
  | matched first rest =>
    obtain ⟨_, _, start, hcombine, hrest, -⟩ := Run.bind_eq_ok hrest
    obtain ⟨_, _, ⟨last, final⟩, hrounds, hlast, -⟩ := Run.bind_eq_ok hrest
    cases hlast
    obtain ⟨hheld, hseed⟩ := hkeeps.seed _ seed hinit
    obtain ⟨hstart, hstep⟩ := hkeeps.step seed first _ start hheld ⟨_, _, _, hfirst⟩ hcombine
    calc
      total value ++ tail = total start ++ rest := hkeeps.foldRounds hinner hstart hrounds
      _ = taken first ++ rest := by rw [hstep, hseed]; rfl
      _ = [] ++ input := hinner input _ first rest hfirst

theorem storage_keeps (inner : Parser ν α) (storage : Storage α) (taken : α → Bytes) :
    FoldKeeps inner storage.allocate storage.push (fun _ => True) taken
      fun items => items.toList.flatMap taken where
  seed := by
    intro calls seed hseed
    rw [Storage.eq_empty_of_allocate hseed]
    exact ⟨trivial, rfl⟩
  step := by
    intro items value calls next _ _ hpush
    rw [Storage.eq_push_of_push hpush]
    exact ⟨trivial, by simp⟩

theorem Accounts.many (hinner : inner.Accounts [] taken) (rounds : Nat) (storage : Storage α) :
    (Parser.many rounds storage inner).Accounts [] (List.flatMap taken) := by
  apply ((storage_keeps inner storage taken).foldMany hinner rounds).refine
  intro items calls values _ hfinish
  rw [eq_toList_of_finish hfinish]

theorem Accounts.many1 (hinner : inner.Accounts [] taken) (rounds : Nat) (storage : Storage α) :
    (Parser.many1 rounds storage inner).Accounts [] (List.flatMap taken) := by
  apply ((storage_keeps inner storage taken).foldMany1 hinner rounds).refine
  intro items calls values _ hfinish
  rw [eq_toList_of_finish hfinish]

end ByteGrammar.Parser

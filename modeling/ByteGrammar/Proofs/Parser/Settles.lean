import ByteGrammar.Proofs.Parser.Takes
import ByteGrammar.Proofs.Run.Settles

namespace ByteGrammar

namespace Storage

variable {ν α : Type}

theorem allocate_ne_unfinished (storage : Storage α) :
    (storage.allocate : Run ν (Array α)) ≠ .unfinished := by
  unfold allocate
  cases storage.empty <;> simp [Run.report, Run.raise]

theorem push_ne_unfinished (storage : Storage α) (items : Array α) (value : α) :
    (storage.push items value : Run ν (Array α)) ≠ .unfinished := by
  unfold push
  cases storage.room items value <;> simp [Run.report, Run.raise]

end Storage

namespace Parser

open ByteGrammar.Run

variable {ν α β γ : Type} {bound count : Nat}

-- The parsers that read bytes themselves end at once

theorem literal_ne_unfinished (expected input : Bytes) :
    (literal expected : Parser ν Bytes) input ≠ .unfinished := by
  unfold literal
  split
  · nofun
  · split <;> nofun

theorem anyByte_ne_unfinished (input : Bytes) : (anyByte : Parser ν UInt8) input ≠ .unfinished := by
  cases input <;> nofun

theorem byte_ne_unfinished (expected : UInt8) (input : Bytes) :
    (byte expected : Parser ν UInt8) input ≠ .unfinished := by
  cases input <;> nofun

theorem satisfyRun_ne_unfinished {test : UInt8 → Run ν Bool}
    (htest : ∀ byte, test byte ≠ .unfinished) (input : Bytes) :
    satisfyRun test input ≠ .unfinished := by
  cases input with
  | nil => nofun
  | cons first rest =>
    apply bind_ne_unfinished (htest first)
    intro passed _
    cases passed <;> nofun

theorem atEnd_ne_unfinished (input : Bytes) : (atEnd : Parser ν Unit) input ≠ .unfinished := by
  cases input <;> nofun

-- On every input shorter than the bound, the parsers settle as their depth grows
def SettlesBelow (bound : Nat) (family : Nat → Parser ν α) : Prop :=
  ∀ input, input.length < bound → Settles fun depth => family depth input

theorem SettlesBelow.const {parser : Parser ν α} (h : ∀ input, parser input ≠ .unfinished)
    (bound : Nat) : SettlesBelow bound fun _ => parser :=
  fun input _ => .const (h input)

-- What is run after a parser that takes something is run on shorter inputs only
theorem SettlesBelow.past {family : Nat → Parser ν α} {takes : Bool}
    (hshorter : SettlesBelow bound family) (h : takes = false → SettlesBelow (bound + 1) family) :
    SettlesBelow (bound + 1 - takes.toNat) family := by
  cases takes with
  | false => exact h rfl
  | true => exact hshorter

-- Each combinator settles if its parts do. What is run on the tail of a match has to settle
-- only on what that match can leave.

theorem SettlesBelow.andThen {first : Nat → Parser ν α} {next : Nat → α → Parser ν β}
    (hfirst : SettlesBelow bound first) (htakes : ∀ depth, (first depth).Takes count)
    (hnext : ∀ value, SettlesBelow (bound - count) fun depth => next depth value) :
    SettlesBelow bound fun depth => (first depth).andThen (next depth) := by
  intro input hinput
  apply (hfirst input hinput).bind
  intro depth outcome hrun
  cases outcome with
  | noMatch => exact .const nofun
  | matched value tail =>
    have hshorter := htakes depth input value tail hrun
    exact hnext value tail (by omega)

theorem SettlesBelow.orElse {first second : Nat → Parser ν α} (hfirst : SettlesBelow bound first)
    (hsecond : SettlesBelow bound second) :
    SettlesBelow bound fun depth => (first depth).orElse (second depth) := by
  intro input hinput
  apply (hfirst input hinput).bind
  intro depth outcome hrun
  cases outcome with
  | noMatch => exact hsecond input hinput
  | matched value tail => exact .const nofun

theorem SettlesBelow.refine {inner : Nat → Parser ν α} (hinner : SettlesBelow bound inner)
    {f : α → Run ν β} (hf : ∀ value, f value ≠ .unfinished) :
    SettlesBelow bound fun depth => (inner depth).refine f := by
  intro input hinput
  apply (hinner input hinput).bind
  intro depth outcome hrun
  cases outcome with
  | noMatch => exact .const nofun
  | matched value tail => exact .const (bind_ne_unfinished (hf value) fun _ _ => nofun)

theorem SettlesBelow.map {inner : Nat → Parser ν α} (hinner : SettlesBelow bound inner)
    (f : α → β) : SettlesBelow bound fun depth => (inner depth).map f :=
  hinner.refine fun _ => nofun

theorem SettlesBelow.sequence_nil :
    SettlesBelow bound fun _ => (sequence [] : Parser ν (List α)) := by
  intro input hinput
  exact .const (by simp [sequence, succeed])

theorem SettlesBelow.sequence_cons {first : Nat → Parser ν α} {rest : Nat → List (Parser ν α)}
    (hfirst : SettlesBelow bound first) (htakes : ∀ depth, (first depth).Takes count)
    (hrest : SettlesBelow (bound - count) fun depth => sequence (rest depth)) :
    SettlesBelow bound fun depth => sequence (first depth :: rest depth) :=
  hfirst.andThen htakes fun value => hrest.map (value :: ·)

theorem SettlesBelow.sequence (parts : List γ) {parser : Nat → γ → Parser ν α}
    (htakes : ∀ part ∈ parts, ∀ depth, (parser depth part).Takes 0)
    (h : ∀ part ∈ parts, SettlesBelow bound fun depth => parser depth part) :
    SettlesBelow bound fun depth => Parser.sequence (parts.map (parser depth)) := by
  induction parts with
  | nil => exact sequence_nil
  | cons part rest ih =>
    have hrest := ih (fun other hother => htakes other (List.mem_cons_of_mem _ hother))
      fun other hother => h other (List.mem_cons_of_mem _ hother)
    exact (h part List.mem_cons_self).sequence_cons (htakes part List.mem_cons_self) hrest

theorem SettlesBelow.choice {arms : List γ} {parser : Nat → γ → Parser ν α}
    (h : ∀ arm ∈ arms, SettlesBelow bound fun depth => parser depth arm) :
    SettlesBelow bound fun depth => choice (arms.map (parser depth)) := by
  induction arms with
  | nil =>
    intro input hinput
    exact .const (by simp)
  | cons arm rest ih =>
    have hrest := ih fun other hother => h other (List.mem_cons_of_mem _ hother)
    exact (h arm List.mem_cons_self).orElse hrest

theorem SettlesBelow.optional {inner : Nat → Parser ν α} (hinner : SettlesBelow bound inner) :
    SettlesBelow bound fun depth => (inner depth).optional := by
  intro input hinput
  apply (hinner input hinput).bind
  intro depth outcome hrun
  cases outcome <;> exact .const nofun

theorem SettlesBelow.notFollowedBy {inner : Nat → Parser ν α} (hinner : SettlesBelow bound inner) :
    SettlesBelow bound fun depth => (inner depth).notFollowedBy := by
  intro input hinput
  apply (hinner input hinput).bind
  intro depth outcome hrun
  cases outcome <;> exact .const nofun

theorem SettlesBelow.followedBy {inner : Nat → Parser ν α} (hinner : SettlesBelow bound inner) :
    SettlesBelow bound fun depth => (inner depth).followedBy := by
  intro input hinput
  apply (hinner input hinput).bind
  intro depth outcome hrun
  cases outcome <;> exact .const nofun

theorem SettlesBelow.delay {inner : Nat → Parser ν α} (hinner : SettlesBelow bound inner) :
    SettlesBelow bound fun depth => (inner depth).delay := by
  intro input hinput
  have hreport : Settles fun _ => (Run.report (.building input) : Run ν Unit) := .const nofun
  exact hreport.bind fun _ _ _ => hinner input hinput

-- The loop of a parser that takes something gets through with what it is given. The depth is
-- also the number of rounds, of which some have been used up before.
theorem SettlesBelow.foldRounds {inner : Nat → Parser ν α} (hinner : SettlesBelow bound inner)
    (htakes : ∀ depth, (inner depth).Takes 1) {combine : β → α → Run ν β}
    (hcombine : ∀ accumulator value, combine accumulator value ≠ .unfinished)
    (used iterations : Nat) (accumulator : β) {input : Bytes} (hinput : input.length < bound) :
    Settles fun depth =>
      Parser.foldRounds (inner depth) combine (depth - used) iterations [] accumulator input := by
  have hround : Settles fun depth =>
      Parser.foldRounds (inner depth) combine (depth - (used + 1) + 1) iterations [] accumulator
        input := by
    simp only [foldRounds_succ]
    apply (hinner input hinput).bind
    intro depth outcome hrun
    cases outcome with
    | noMatch => exact .const (by simp)
    | matched value tail =>
      have hshorter := htakes depth input value tail hrun
      apply (Settles.const (hcombine accumulator value)).bind
      intro _ next _
      exact hinner.foldRounds htakes hcombine (used + 1) (iterations + 1) next (by omega)
  apply hround.of_eventually_eq (used + 1)
  intro depth hdepth
  have hrounds : depth - used = depth - (used + 1) + 1 := by omega
  rw [hrounds]
termination_by input.length

-- A fold has as many rounds as it may go deep

theorem SettlesBelow.foldMany {inner : Nat → Parser ν α} (hinner : SettlesBelow bound inner)
    (htakes : ∀ depth, (inner depth).Takes 1) {init : Run ν β} (hinit : init ≠ .unfinished)
    {combine : β → α → Run ν β}
    (hcombine : ∀ accumulator value, combine accumulator value ≠ .unfinished) :
    SettlesBelow bound fun depth => Parser.foldMany depth (inner depth) init combine := by
  intro input hinput
  apply (Settles.const hinit).bind
  intro _ seed _
  exact (hinner.foldRounds htakes hcombine 0 0 seed hinput).bind fun _ _ _ => .const nofun

theorem SettlesBelow.foldMany1 {inner : Nat → Parser ν α} (hinner : SettlesBelow bound inner)
    (htakes : ∀ depth, (inner depth).Takes 1) {init : Run ν β} (hinit : init ≠ .unfinished)
    {combine : β → α → Run ν β}
    (hcombine : ∀ accumulator value, combine accumulator value ≠ .unfinished) :
    SettlesBelow bound fun depth => Parser.foldMany1 depth (inner depth) init combine := by
  intro input hinput
  apply (Settles.const hinit).bind
  intro _ seed _
  apply (hinner input hinput).bind
  intro depth outcome hrun
  cases outcome with
  | noMatch => exact .const nofun
  | matched value tail =>
    have hshorter := htakes depth input value tail hrun
    apply (Settles.const (hcombine seed value)).bind
    intro _ start _
    exact (hinner.foldRounds htakes hcombine 0 0 start (by omega)).bind fun _ _ _ => .const nofun

theorem SettlesBelow.many {inner : Nat → Parser ν α} (hinner : SettlesBelow bound inner)
    (htakes : ∀ depth, (inner depth).Takes 1) (storage : Storage α) :
    SettlesBelow bound fun depth => Parser.many depth storage (inner depth) :=
  (hinner.foldMany htakes storage.allocate_ne_unfinished storage.push_ne_unfinished).refine
    fun _ => nofun

theorem SettlesBelow.many1 {inner : Nat → Parser ν α} (hinner : SettlesBelow bound inner)
    (htakes : ∀ depth, (inner depth).Takes 1) (storage : Storage α) :
    SettlesBelow bound fun depth => Parser.many1 depth storage (inner depth) :=
  (hinner.foldMany1 htakes storage.allocate_ne_unfinished storage.push_ne_unfinished).refine
    fun _ => nofun

end Parser

end ByteGrammar

import ByteGrammar.Parser.Many
import ByteGrammar.Proofs.Run.Gives
import Mathlib.Algebra.GroupWithZero.Nat

namespace ByteGrammar.Parser

variable {ν α β γ : Type}

-- Each match takes at least so many bytes
def Takes (parser : Parser ν α) (count : Nat) : Prop :=
  ∀ input value tail, (parser input).Gives (.ok (.matched value tail)) →
    tail.length + count ≤ input.length

theorem Takes.mono {parser : Parser ν α} {count fewer : Nat} (h : parser.Takes count)
    (hfewer : fewer ≤ count) : parser.Takes fewer := by
  intro input value tail hmatch
  have hcount := h input value tail hmatch
  omega

-- The parsers that read bytes themselves

theorem literal_takes (expected : Bytes) :
    (literal expected : Parser ν Bytes).Takes expected.length := by
  intro input value tail hmatch
  unfold literal at hmatch
  split at hmatch
  · next hprefix =>
    obtain ⟨_, hmatch⟩ := hmatch
    cases hmatch
    have hlength := hprefix.length_le
    simp only [List.length_drop]
    omega
  · obtain ⟨_, hmatch⟩ := hmatch
    split at hmatch <;> cases hmatch

theorem anyByte_takes : (anyByte : Parser ν UInt8).Takes 1 := by
  intro input value tail hmatch
  obtain ⟨_, hmatch⟩ := hmatch
  cases input with
  | nil => cases hmatch
  | cons first rest =>
    cases hmatch
    exact Nat.le_refl _

theorem byte_takes (expected : UInt8) : (byte expected : Parser ν UInt8).Takes 1 := by
  intro input value tail hmatch
  obtain ⟨_, hmatch⟩ := hmatch
  cases input with
  | nil => cases hmatch
  | cons first rest =>
    simp only [byte, Run.pure_eq, Run.ended.injEq, Except.ok.injEq] at hmatch
    split at hmatch
    · cases hmatch.2
      exact Nat.le_refl _
    · cases hmatch.2

theorem satisfyRun_takes (test : UInt8 → Run ν Bool) : (satisfyRun test).Takes 1 := by
  intro input value tail hmatch
  cases input with
  | nil =>
    obtain ⟨_, hmatch⟩ := hmatch
    cases hmatch
  | cons first rest =>
    obtain ⟨passed, -, _, hrest⟩ := Run.bind_gives_ok_iff.mp hmatch
    cases passed with
    | false => cases hrest
    | true =>
      cases hrest
      exact Nat.le_refl _

theorem atEnd_takes : (atEnd : Parser ν Unit).Takes 0 := by
  intro input value tail hmatch
  obtain ⟨_, hmatch⟩ := hmatch
  cases input with
  | nil =>
    cases hmatch
    exact Nat.le_refl _
  | cons first rest => cases hmatch

-- Each combinator takes what its parts take. Lookahead takes nothing.

theorem succeed_takes (value : α) : (succeed value : Parser ν α).Takes 0 := by
  intro input other tail hmatch
  obtain ⟨_, hmatch⟩ := hmatch
  cases hmatch
  exact Nat.le_refl _

theorem Takes.andThen {first : Parser ν α} {next : α → Parser ν β} {count more : Nat}
    (hfirst : first.Takes count) (hnext : ∀ value, (next value).Takes more) :
    (first.andThen next).Takes (count + more) := by
  intro input value tail hmatch
  obtain ⟨outcome, hrun, hrest⟩ := Run.bind_gives_ok_iff.mp hmatch
  cases outcome with
  | noMatch =>
    obtain ⟨_, hrest⟩ := hrest
    cases hrest
  | matched mid rest =>
    have hleft := hfirst input mid rest hrun
    have hright := hnext mid rest value tail hrest
    omega

theorem Takes.orElse {first second : Parser ν α} {count : Nat} (hfirst : first.Takes count)
    (hsecond : second.Takes count) : (first.orElse second).Takes count := by
  intro input value tail hmatch
  obtain ⟨outcome, hrun, hrest⟩ := Run.bind_gives_ok_iff.mp hmatch
  cases outcome with
  | noMatch => exact hsecond input value tail hrest
  | matched mid rest =>
    obtain ⟨_, hrest⟩ := hrest
    cases hrest
    exact hfirst input value tail hrun

theorem Takes.refine {inner : Parser ν α} {count : Nat} (hinner : inner.Takes count)
    (f : α → Run ν β) : (inner.refine f).Takes count := by
  intro input value tail hmatch
  obtain ⟨outcome, hrun, hrest⟩ := Run.bind_gives_ok_iff.mp hmatch
  cases outcome with
  | noMatch =>
    obtain ⟨_, hrest⟩ := hrest
    cases hrest
  | matched mid rest =>
    obtain ⟨result, -, _, hresult⟩ := Run.bind_gives_ok_iff.mp hrest
    cases hresult
    exact hinner input mid tail hrun

theorem Takes.map {inner : Parser ν α} {count : Nat} (hinner : inner.Takes count) (f : α → β) :
    (inner.map f).Takes count := hinner.refine _

theorem Takes.both {first : Parser ν α} {second : Parser ν β} {count more : Nat}
    (hfirst : first.Takes count) (hsecond : second.Takes more) :
    (first.both second).Takes (count + more) :=
  hfirst.andThen fun _ => hsecond.map _

theorem Takes.sequence (parts : List γ) {parser : γ → Parser ν α} {count : γ → Nat}
    (h : ∀ part ∈ parts, (parser part).Takes (count part)) :
    (Parser.sequence (parts.map parser)).Takes (parts.map count).sum := by
  induction parts with
  | nil => exact succeed_takes []
  | cons part rest ih =>
    have hrest := ih fun other hother => h other (List.mem_cons_of_mem _ hother)
    exact (h part List.mem_cons_self).andThen fun _ => hrest.map _

theorem Takes.choice {parsers : List (Parser ν α)} {count : Nat}
    (h : ∀ parser ∈ parsers, parser.Takes count) : (Parser.choice parsers).Takes count := by
  induction parsers with
  | nil =>
    intro input value tail hmatch
    obtain ⟨_, hmatch⟩ := hmatch
    cases hmatch
  | cons first rest ih =>
    have hrest := ih fun parser hparser => h parser (List.mem_cons_of_mem _ hparser)
    exact (h first List.mem_cons_self).orElse hrest

theorem Takes.optional {inner : Parser ν α} (hinner : inner.Takes 0) : inner.optional.Takes 0 := by
  intro input value tail hmatch
  obtain ⟨outcome, hrun, _, hrest⟩ := Run.bind_gives_ok_iff.mp hmatch
  cases outcome with
  | noMatch =>
    cases hrest
    exact Nat.le_refl _
  | matched mid rest =>
    cases hrest
    exact hinner input mid tail hrun

theorem notFollowedBy_takes (inner : Parser ν α) : inner.notFollowedBy.Takes 0 := by
  intro input value tail hmatch
  obtain ⟨outcome, -, _, hrest⟩ := Run.bind_gives_ok_iff.mp hmatch
  cases outcome with
  | noMatch =>
    cases hrest
    exact Nat.le_refl _
  | matched mid rest => cases hrest

theorem followedBy_takes (inner : Parser ν α) : inner.followedBy.Takes 0 := by
  intro input value tail hmatch
  obtain ⟨outcome, -, _, hrest⟩ := Run.bind_gives_ok_iff.mp hmatch
  cases outcome with
  | noMatch => cases hrest
  | matched mid rest =>
    cases hrest
    exact Nat.le_refl _

theorem Takes.between {opening : Parser ν α} {inner : Parser ν β} {closing : Parser ν γ}
    {before count after : Nat} (hopening : opening.Takes before) (hinner : inner.Takes count)
    (hclosing : closing.Takes after) :
    (opening.between inner closing).Takes (before + (count + after)) :=
  hopening.andThen fun _ => hinner.andThen fun _ => hclosing.map _

theorem Takes.delay {inner : Parser ν α} {count : Nat} (hinner : inner.Takes count) :
    inner.delay.Takes count := by
  intro input value tail hmatch
  obtain ⟨_, -, hrun⟩ := Run.bind_gives_ok_iff.mp hmatch
  exact hinner input value tail hrun

-- A loop may stop at once, so it is not sure to take anything

theorem Takes.foldRounds {inner : Parser ν α} (hinner : inner.Takes 0) {combine : β → α → Run ν β}
    {rounds iterations : Nat} {accumulator total : β} {input tail : Bytes}
    (h : (Parser.foldRounds inner combine rounds iterations [] accumulator input).Gives
      (.ok (total, tail))) : tail.length ≤ input.length := by
  induction rounds generalizing iterations accumulator input with
  | zero => exact absurd h (Run.not_gives_unfinished _)
  | succ rounds ih =>
    rw [foldRounds_succ] at h
    obtain ⟨outcome, hrun, hrest⟩ := Run.bind_gives_ok_iff.mp h
    cases outcome with
    | noMatch =>
      obtain ⟨_, hrest⟩ := hrest
      cases hrest
      exact Nat.le_refl _
    | matched value rest =>
      obtain ⟨next, -, hloop⟩ := Run.bind_gives_ok_iff.mp hrest
      have hround := hinner input value rest hrun
      exact Nat.le_trans (ih hloop) hround

theorem Takes.foldMany {inner : Parser ν α} (hinner : inner.Takes 0) (rounds : Nat)
    (init : Run ν β) (combine : β → α → Run ν β) :
    (Parser.foldMany rounds inner init combine).Takes 0 := by
  intro input value tail hmatch
  obtain ⟨seed, -, hrest⟩ := Run.bind_gives_ok_iff.mp hmatch
  obtain ⟨⟨total, last⟩, hloop, _, hlast⟩ := Run.bind_gives_ok_iff.mp hrest
  cases hlast
  exact hinner.foldRounds hloop

theorem Takes.foldMany1 {inner : Parser ν α} {count : Nat} (hinner : inner.Takes count)
    (rounds : Nat) (init : Run ν β) (combine : β → α → Run ν β) :
    (Parser.foldMany1 rounds inner init combine).Takes count := by
  intro input value tail hmatch
  obtain ⟨seed, -, hrest⟩ := Run.bind_gives_ok_iff.mp hmatch
  obtain ⟨outcome, hfirst, hrest⟩ := Run.bind_gives_ok_iff.mp hrest
  cases outcome with
  | noMatch =>
    obtain ⟨_, hrest⟩ := hrest
    cases hrest
  | matched first rest =>
    obtain ⟨start, -, hrest⟩ := Run.bind_gives_ok_iff.mp hrest
    obtain ⟨⟨total, last⟩, hloop, _, hlast⟩ := Run.bind_gives_ok_iff.mp hrest
    cases hlast
    have hmore := (hinner.mono (Nat.zero_le _)).foldRounds hloop
    have hone := hinner input first rest hfirst
    omega

theorem Takes.many {inner : Parser ν α} (hinner : inner.Takes 0) (rounds : Nat)
    (storage : Storage α) : (Parser.many rounds storage inner).Takes 0 :=
  (hinner.foldMany rounds _ _).refine _

theorem Takes.many1 {inner : Parser ν α} {count : Nat} (hinner : inner.Takes count) (rounds : Nat)
    (storage : Storage α) : (Parser.many1 rounds storage inner).Takes count :=
  (hinner.foldMany1 rounds _ _).refine _

end ByteGrammar.Parser

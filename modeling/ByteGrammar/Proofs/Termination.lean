import ByteGrammar.Proofs.Grammar.Consuming
import ByteGrammar.Proofs.Grammar.Derived
import ByteGrammar.Proofs.Parser.Settles

namespace ByteGrammar.Grammar

open ByteGrammar.Parser (SettlesBelow)

variable {ρ : Type} {rules : ρ → Grammar ρ} {takers : ρ → Bool} {rank : ρ → Nat}
  {grammar : Grammar ρ} {bound : Nat}

-- No way leads from a rule back to itself, or around a loop, without a byte that is taken. The
-- rules that are relied on to take one do so, each element of a repetition takes one, and
-- before a byte is taken the rank of the rules that are entered goes down.
structure Guarded (rules : ρ → Grammar ρ) (takers : ρ → Bool) (rank : ρ → Nat)
    (grammar : Grammar ρ) : Prop where
  takers_consume : ∀ name, takers name = true → (rules name).consuming takers = true
  elements_consume : ∀ part element, Reaches rules grammar part → part.element? = some element →
    element.consuming takers = true
  rank_lt : ∀ name, ∀ other ∈ (rules name).exposed takers, rank other < rank name

theorem noting_ne_unfinished (note : Except Error Value → Note ρ) (answer : Except Error Value) :
    noting note answer ≠ .unfinished :=
  Run.bind_ne_unfinished (by simp [Run.report]) fun _ _ => Run.ofExcept_ne_unfinished answer

theorem testing_ne_unfinished (test : UInt8 → Bool) (byte : UInt8) :
    (testing test byte : Run (Note ρ) Bool) ≠ .unfinished := nofun

theorem consulting_ne_unfinished (given : Primitive) (input : Bytes) :
    (consulting given : Parser (Note ρ) Value) input ≠ .unfinished := by
  apply Run.bind_ne_unfinished (by simp [Run.report])
  intro _ _
  unfold Primitive.parser
  cases given.needsMore input with
  | false => exact Run.ofExcept_ne_unfinished _
  | true =>
    exact Run.bind_ne_unfinished (by simp [Run.report]) fun _ _ => Run.ofExcept_ne_unfinished _

theorem parser_settlesBelow_of_layer {part : Grammar ρ}
    (h : SettlesBelow bound fun depth => layer rules depth (parser rules depth) part) :
    SettlesBelow bound fun depth => parser rules depth part := by
  intro input hinput
  exact ((h input hinput).after [.note (.entered part input)]).of_succ

-- A sequence settles if its parts do up to the first that is consuming, which is as far as it
-- exposes rules. The parts behind that one are run on shorter inputs.
theorem sequence_settlesBelow {parser : Nat → Grammar ρ → Parser (Note ρ) Value}
    {allowed : ρ → Prop} (parts : List (Grammar ρ))
    (htakes : ∀ part ∈ parts, ∀ depth, (parser depth part).Takes (part.consuming takers).toNat)
    (hshorter : ∀ part ∈ parts, SettlesBelow bound fun depth => parser depth part)
    (hparts : ∀ part ∈ parts, (∀ name ∈ part.exposed takers, allowed name) →
      SettlesBelow (bound + 1) fun depth => parser depth part)
    (hexposed : ∀ name ∈ exposedUpTo takers parts, allowed name) :
    SettlesBelow (bound + 1) fun depth => Parser.sequence (parts.map (parser depth)) := by
  induction parts with
  | nil => exact .sequence_nil
  | cons part rest ih =>
    have hmem : ∀ other ∈ rest, other ∈ part :: rest := fun _ => List.mem_cons_of_mem part
    have hshorterRest : SettlesBelow bound fun depth => Parser.sequence (rest.map (parser depth)) :=
      .sequence rest
        (fun other hother depth => (htakes other (hmem other hother) depth).mono (Nat.zero_le _))
        fun other hother => hshorter other (hmem other hother)
    have hfirst : SettlesBelow (bound + 1) fun depth => parser depth part :=
      hparts part List.mem_cons_self fun name hname =>
        hexposed name (List.mem_append_left _ hname)
    have hrest : part.consuming takers = false →
        SettlesBelow (bound + 1) fun depth => Parser.sequence (rest.map (parser depth)) := by
      intro hconsuming
      apply ih (fun other hother => htakes other (hmem other hother))
        (fun other hother => hshorter other (hmem other hother))
        (fun other hother => hparts other (hmem other hother))
      intro name hname
      exact hexposed name (by simp [exposedUpTo, hconsuming, hname])
    exact hfirst.sequence_cons (htakes part List.mem_cons_self) (hshorterRest.past hrest)

-- One more byte: if all that is reached settles on shorter inputs, and the rules that a grammar
-- exposes settle on inputs that are longer by one, then so does the grammar
theorem settlesBelow_of_exposed (hguarded : Guarded rules takers rank grammar)
    (hprimitives : ∀ given, Reaches rules grammar (.primitive given) → given.LeavesSuffix)
    (hshorter : ∀ part, Reaches rules grammar part →
      SettlesBelow bound fun depth => parser rules depth part)
    (part : Grammar ρ) (hreach : Reaches rules grammar part)
    (hexposed : ∀ name ∈ part.exposed takers, Reaches rules grammar (.rule name) →
      SettlesBelow (bound + 1) fun depth => parser rules depth (.rule name)) :
    SettlesBelow (bound + 1) fun depth => parser rules depth part := by
  induction part using parts_induction rules with
  | reference name => exact hexposed name (by simp [exposed]) hreach
  | whole part hrule ih =>
    have hreached : ∀ inner ∈ part.parts rules, Reaches rules grammar inner :=
      fun inner hinner => hreach.tail hinner
    have htakes : ∀ inner ∈ part.parts rules, ∀ depth,
        (parser rules depth inner).Takes (inner.consuming takers).toNat := by
      intro inner hinner depth
      apply parser_takes depth inner hguarded.takers_consume
      exact fun given hgiven => hprimitives given ((hreached inner hinner).trans hgiven)
    have hless : ∀ inner ∈ part.parts rules,
        SettlesBelow bound fun depth => parser rules depth inner :=
      fun inner hinner => hshorter inner (hreached inner hinner)
    have hparts : ∀ inner ∈ part.parts rules, inner.exposed takers ⊆ part.exposed takers →
        SettlesBelow (bound + 1) fun depth => parser rules depth inner :=
      fun inner hinner hsubset => ih inner hinner (hreached inner hinner)
        fun name hname => hexposed name (hsubset hname)
    have hsequence (hsubset : exposedUpTo takers (part.parts rules) ⊆ part.exposed takers) :
        SettlesBelow (bound + 1) fun depth =>
          Parser.sequence ((part.parts rules).map (parser rules depth)) :=
      sequence_settlesBelow (part.parts rules) htakes hless
        (fun inner hinner hallowed => ih inner hinner (hreached inner hinner) hallowed)
        fun name hname => hexposed name (hsubset hname)
    have helement : ∀ element ∈ part.parts rules, part.element? = some element → ∀ depth,
        (parser rules depth element).Takes 1 := by
      intro element hmem hpart depth
      have h := htakes element hmem depth
      rwa [hguarded.elements_consume part element hreach hpart] at h
    apply parser_settlesBelow_of_layer
    cases part with
    | literal expected => exact (SettlesBelow.const (Parser.literal_ne_unfinished expected) _).map _
    | anyByte => exact (SettlesBelow.const Parser.anyByte_ne_unfinished _).map _
    | byte expected => exact (SettlesBelow.const (Parser.byte_ne_unfinished expected) _).map _
    | satisfy test =>
      have htest := Parser.satisfyRun_ne_unfinished (testing_ne_unfinished (ρ := ρ) test)
      exact (SettlesBelow.const htest _).map _
    | atEnd => exact (SettlesBelow.const Parser.atEnd_ne_unfinished _).map _
    | sequence parts => exact (hsequence (List.Subset.refl _)).map _
    | both first second =>
      simp only [layer_both]
      exact (hsequence (by simp [exposed, exposedUpTo, parts])).map _
    | choice arms =>
      exact .choice fun arm harm => hparts arm harm (exposed_subset_all harm)
    | orElse first second =>
      exact (hparts first (by simp [parts]) (by simp [exposed])).orElse
        (hparts second (by simp [parts]) (by simp [exposed]))
    | map label f body =>
      exact (hparts body (by simp [parts]) (by simp [exposed])).refine fun _ =>
        noting_ne_unfinished _ _
    | refine label f body =>
      exact (hparts body (by simp [parts]) (by simp [exposed])).refine fun _ =>
        noting_ne_unfinished _ _
    | optional body => exact (hparts body (by simp [parts]) (by simp [exposed])).optional.map _
    | notFollowedBy body =>
      exact (hparts body (by simp [parts]) (by simp [exposed])).notFollowedBy.map _
    | followedBy body => exact (hparts body (by simp [parts]) (by simp [exposed])).followedBy.map _
    | between opening body closing =>
      simp only [layer_between]
      exact (hsequence (by simp [exposed, exposedUpTo, parts])).map _
    | foldMany init combine body =>
      exact (hparts body (by simp [parts]) (by simp [exposed])).foldMany
        (helement body (by simp [parts]) rfl) (noting_ne_unfinished _ _)
        fun _ _ => noting_ne_unfinished _ _
    | foldMany1 init combine body =>
      exact (hparts body (by simp [parts]) (by simp [exposed])).foldMany1
        (helement body (by simp [parts]) rfl) (noting_ne_unfinished _ _)
        fun _ _ => noting_ne_unfinished _ _
    | many storage body =>
      exact ((hparts body (by simp [parts]) (by simp [exposed])).many
        (helement body (by simp [parts]) rfl) storage).map _
    | many1 storage body =>
      exact ((hparts body (by simp [parts]) (by simp [exposed])).many1
        (helement body (by simp [parts]) rfl) storage).map _
    | delay body => exact (hparts body (by simp [parts]) (by simp [exposed])).delay
    | rule name => exact absurd rfl (hrule name)
    | group body => exact hparts body (by simp [parts]) (by simp [exposed])
    | probe label body => exact hparts body (by simp [parts]) (by simp [exposed])
    | primitive given => exact .const (consulting_ne_unfinished given) _

-- The rank goes down from a rule to those that its body exposes
theorem rule_settlesBelow (hguarded : Guarded rules takers rank grammar)
    (hprimitives : ∀ given, Reaches rules grammar (.primitive given) → given.LeavesSuffix)
    (hshorter : ∀ part, Reaches rules grammar part →
      SettlesBelow bound fun depth => parser rules depth part)
    (name : ρ) (hreach : Reaches rules grammar (.rule name)) :
    SettlesBelow (bound + 1) fun depth => parser rules depth (.rule name) := by
  have hbody : Reaches rules grammar (rules name) := hreach.tail (by simp [parts])
  have hrule : SettlesBelow (bound + 1) fun depth => parser rules depth (rules name) := by
    apply settlesBelow_of_exposed hguarded hprimitives hshorter (rules name) hbody
    intro other hother hreachOther
    have hrank : rank other < rank name := hguarded.rank_lt name other hother
    exact rule_settlesBelow hguarded hprimitives hshorter other hreachOther
  exact parser_settlesBelow_of_layer hrule.delay
termination_by rank name

theorem reached_settlesBelow (hguarded : Guarded rules takers rank grammar)
    (hprimitives : ∀ given, Reaches rules grammar (.primitive given) → given.LeavesSuffix)
    (bound : Nat) (part : Grammar ρ) (hreach : Reaches rules grammar part) :
    SettlesBelow bound fun depth => parser rules depth part := by
  induction bound generalizing part with
  | zero => exact fun input hinput => absurd hinput (Nat.not_lt_zero _)
  | succ bound ih =>
    apply settlesBelow_of_exposed hguarded hprimitives ih part hreach
    intro name _ hname
    exact rule_settlesBelow hguarded hprimitives ih name hname

-- A guarded grammar comes to an end on every input. The measure is what is left of the input,
-- then the rank of the rule that is entered, then the grammar that is left of its body.
theorem guarded_parse_ends (hguarded : Guarded rules takers rank grammar)
    (hprimitives : ∀ given, Reaches rules grammar (.primitive given) → given.LeavesSuffix)
    (input : Bytes) : ∃ trace result, Parses rules grammar input trace result := by
  have hsettles := reached_settlesBelow hguarded hprimitives (input.length + 1) grammar (.refl _)
  obtain ⟨trace, result, depth, hparser⟩ := hsettles input (Nat.lt_succ_self _)
  exact ⟨trace, result, depth, hparser depth (Nat.le_refl _)⟩

inductive Phrase where
  | sum
  | term

def Phrase.level : Phrase → Nat
  | sum => 1
  | term => 0

-- Terms with plus signs between them, where a term is a number or a sum in parentheses
def arithmetic : Phrase → Grammar Phrase
  | .sum => .both (.rule .term) (.many .heap (.both (.byte 43) (.rule .term)))
  | .term =>
    .orElse (.between (.byte 40) (.rule .sum) (.byte 41)) (.many1 .heap (.satisfy (48 ≤ ·)))

-- A sum after one byte that is not looked at
def marked : Grammar Phrase := .both (.primitive (.take 1)) (.rule .sum)

-- All that a parse of a marked sum may come to
def phrases : List (Grammar Phrase) :=
  [marked, .primitive (.take 1), .rule .sum, .rule .term, arithmetic .sum, arithmetic .term,
    .many .heap (.both (.byte 43) (.rule .term)), .both (.byte 43) (.rule .term), .byte 43,
    .between (.byte 40) (.rule .sum) (.byte 41), .byte 40, .byte 41,
    .many1 .heap (.satisfy (48 ≤ ·)), .satisfy (48 ≤ ·)]

theorem mem_phrases {part : Grammar Phrase} (h : Reaches arithmetic marked part) :
    part ∈ phrases :=
  h.mem_of_closed phrases (by simp [phrases, arithmetic, marked, parts]) (by simp [phrases])

theorem arithmetic_guarded : Guarded arithmetic (fun _ => true) Phrase.level marked where
  takers_consume name _ := by cases name <;> rfl
  elements_consume part element hreach helement := by
    have hmem := mem_phrases hreach
    simp only [phrases, List.mem_cons, List.not_mem_nil, or_false] at hmem
    rcases hmem with rfl | rfl | rfl | rfl | rfl | rfl | rfl | rfl | rfl | rfl | rfl | rfl | rfl |
      rfl <;> cases helement <;> rfl
  rank_lt name other hother := by
    cases name with
    | sum =>
      obtain rfl : other = .term := by simpa [arithmetic, exposed, consuming] using hother
      decide
    | term => simp [arithmetic, exposed, consuming] at hother

-- "#1+(2", where the parenthesis is not closed
theorem guarded_parse_ends_unclosed : Guarded arithmetic (fun _ => true) Phrase.level marked ∧
    ∃ trace result, Parses arithmetic marked [35, 49, 43, 40, 50] trace result := by
  refine ⟨arithmetic_guarded, guarded_parse_ends arithmetic_guarded ?_ _⟩
  intro given hgiven
  obtain rfl : given = .take 1 := by simpa [phrases, arithmetic, marked] using mem_phrases hgiven
  exact take_leavesSuffix 1

end ByteGrammar.Grammar

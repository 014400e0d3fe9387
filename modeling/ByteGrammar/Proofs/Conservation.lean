import ByteGrammar.Grammar.Depth
import ByteGrammar.Proofs.Grammar.Reach
import ByteGrammar.Proofs.Parser.Accounts

namespace ByteGrammar.Grammar

variable {ρ : Type} {rules : ρ → Grammar ρ}

def Yields (rules : ρ → Grammar ρ) (grammar : Grammar ρ) (value : Value) : Prop :=
  ∃ input trace tail, Parses rules grammar input trace (.ok (.matched value tail))

-- The accumulators that a fold may come to on the values it may be given
inductive Accumulates (init : Except Error Value) (combine : Value → Value → Except Error Value)
    (given : Value → Prop) : Value → Prop
  | seed (seed : Value) (hseed : init = .ok seed) : Accumulates init combine given seed
  | step (accumulator value next : Value)
      (haccumulator : Accumulates init combine given accumulator) (hvalue : given value)
      (hnext : combine accumulator value = .ok next) : Accumulates init combine given next

-- The seed holds no bytes, and each step adds the bytes of the value at the end
structure FoldConserves (init : Except Error Value)
    (combine : Value → Value → Except Error Value) (given : Value → Prop) : Prop where
  seed : ∀ seed, init = .ok seed → seed.flat = []
  step : ∀ accumulator value next, Accumulates init combine given accumulator → given value →
    combine accumulator value = .ok next → next.flat = accumulator.flat ++ value.flat

-- A grammar that drops no bytes itself. The text between two delimiters comes without them.
-- A function is asked to keep the bytes of what it can be given, and only if it succeeds.
def Conserves (rules : ρ → Grammar ρ) : Grammar ρ → Prop
  | between _ _ _ => False
  | map _ f body => ∀ value, Yields rules body value → (f value).flat = value.flat
  | refine _ f body =>
    ∀ value result, Yields rules body value → f value = .ok result → result.flat = value.flat
  | foldMany init combine body => FoldConserves init combine (Yields rules body)
  | foldMany1 init combine body => FoldConserves init combine (Yields rules body)
  | primitive given =>
    ∀ input value tail, given.parse input = .ok (.matched value tail) → value.flat ++ tail = input
  | _ => True

theorem FoldConserves.foldKeeps {init : Except Error Value}
    {combine : Value → Value → Except Error Value} {body : Grammar ρ}
    {inner : Parser (Note ρ) Value} (h : FoldConserves init combine (Yields rules body))
    (hyields : ∀ value, inner.Yields value → Yields rules body value) :
    Parser.FoldKeeps inner (noting .seeded init)
      (fun accumulator value => noting (.combined accumulator value) (combine accumulator value))
      (Accumulates init combine (Yields rules body)) Value.flat Value.flat where
  seed := by
    intro calls seed hseed
    have hinit := eq_ok_of_noting hseed
    exact ⟨.seed seed hinit, h.seed seed hinit⟩
  step := by
    intro accumulator value calls next hheld hvalue hcombine
    have hgiven := hyields value hvalue
    have hnext := eq_ok_of_noting hcombine
    exact ⟨.step accumulator value next hheld hgiven hnext,
      h.step accumulator value next hheld hgiven hnext⟩

theorem consulting_accounts {given : Primitive}
    (h : ∀ input value tail, given.parse input = .ok (.matched value tail) →
      value.flat ++ tail = input) :
    (consulting given : Parser (Note ρ) Value).Accounts [] Value.flat := by
  intro input trace value tail hrun
  obtain ⟨_, _, _, -, hrest, -⟩ := Run.bind_eq_ok hrun
  exact h input value tail (Primitive.parse_eq_ok hrest)

theorem layer_accounts {rounds : Nat} {part : Grammar ρ → Parser (Note ρ) Value}
    (grammar : Grammar ρ) (hconserves : grammar.Conserves rules)
    (hparts : ∀ inner ∈ grammar.parts rules, (part inner).Accounts [] Value.flat)
    (hyields : ∀ inner value, (part inner).Yields value → Yields rules inner value) :
    (layer rules rounds part grammar).Accounts [] Value.flat := by
  cases grammar with
  | literal expected => exact (Parser.literal_accounts expected).map fun _ => by simp [Value.flat]
  | anyByte => exact Parser.anyByte_accounts.map fun _ => by simp [Value.flat]
  | byte expected => exact (Parser.byte_accounts expected).map fun _ => by simp [Value.flat]
  | satisfy test =>
    exact (Parser.satisfyRun_accounts (testing test)).map fun _ => by simp [Value.flat]
  | atEnd => exact Parser.atEnd_accounts.map fun _ => by simp [Value.flat]
  | sequence parts =>
    exact (Parser.Accounts.sequence (List.forall_mem_map.mpr hparts)).map Value.flat_ofParts
  | both first second =>
    have hboth := (hparts first (by simp [parts])).both (hparts second (by simp [parts]))
    exact hboth.map fun _ => by simp [Value.flat, Value.flatAll]
  | choice arms => exact Parser.Accounts.choice (List.forall_mem_map.mpr hparts)
  | orElse first second =>
    exact (hparts first (by simp [parts])).orElse (hparts second (by simp [parts]))
  | map label f body =>
    apply (hparts body (by simp [parts])).refine
    intro value calls result hvalue hcall
    cases hcall
    exact hconserves value (hyields body value hvalue)
  | refine label f body =>
    apply (hparts body (by simp [parts])).refine
    intro value calls result hvalue hcall
    exact hconserves value result (hyields body value hvalue) (eq_ok_of_noting hcall)
  | optional body => exact (hparts body (by simp [parts])).optional.map Value.flat_ofOption
  | notFollowedBy body =>
    exact (Parser.notFollowedBy_accounts (part body)).map fun _ => by simp [Value.flat]
  | followedBy body =>
    exact (Parser.followedBy_accounts (part body)).map fun _ => by simp [Value.flat]
  | between opening body closing => exact False.elim hconserves
  | foldMany init combine body =>
    exact (hconserves.foldKeeps (hyields body)).foldMany (hparts body (by simp [parts])) rounds
  | foldMany1 init combine body =>
    exact (hconserves.foldKeeps (hyields body)).foldMany1 (hparts body (by simp [parts])) rounds
  | many storage body =>
    exact ((hparts body (by simp [parts])).many rounds storage).map Value.flat_list
  | many1 storage body =>
    exact ((hparts body (by simp [parts])).many1 rounds storage).map Value.flat_list
  | delay body => exact (hparts body (by simp [parts])).delay
  | rule name => exact (hparts (rules name) (by simp [parts])).delay
  | group body => exact hparts body (by simp [parts])
  | probe label body => exact hparts body (by simp [parts])
  | primitive given => exact consulting_accounts hconserves

theorem parser_accounts (depth : Nat) (grammar : Grammar ρ)
    (hconserves : ∀ part, Reaches rules grammar part → part.Conserves rules) :
    (parser rules depth grammar).Accounts [] Value.flat := by
  induction depth generalizing grammar with
  | zero => intro _ _ _ _ h; cases h
  | succ depth ih =>
    have hlayer : (layer rules depth (parser rules depth) grammar).Accounts [] Value.flat := by
      apply layer_accounts grammar (hconserves grammar (.refl _))
      · intro inner hinner
        exact ih inner fun part hpart => hconserves part (.of_part hinner hpart)
      · rintro inner value ⟨input, trace, tail, hrun⟩
        exact ⟨input, trace, tail, depth, hrun⟩
    intro input trace value tail h
    obtain ⟨_, _, _, -, hrun, -⟩ := Run.bind_eq_ok h
    exact hlayer input _ value tail hrun

-- No byte is lost, doubled or moved: the bytes of the value, with the tail after them, are
-- the input. What a lookahead or an abandoned arm has read does not count.
theorem flat_append_tail {depth : Nat} {grammar : Grammar ρ} {input tail : Bytes}
    {trace : List (Event (Note ρ))} {value : Value}
    (hconserves : ∀ part, Reaches rules grammar part → part.Conserves rules)
    (h : parser rules depth grammar input = .ended trace (.ok (.matched value tail))) :
    value.flat ++ tail = input :=
  parser_accounts depth grammar hconserves input trace value tail h

def collect (word value : Value) : Except Error Value := .ok (.bytes (word.flat ++ value.flat))

-- Bytes up to a closing bracket, put together
def word : Grammar Unit :=
  .foldMany1 (.ok (.bytes [])) collect
    (.both (.notFollowedBy (.satisfy (· = 41))) (.primitive (.take 1)))

-- Brackets around two elements at most, where an element is a word or is in brackets again
def elements : Unit → Grammar Unit := fun _ =>
  .orElse (.sequence [.byte 40, .many (.bounded 2) (.rule ()), .byte 41]) word

theorem word_conserves : word.Conserves elements where
  seed := by
    intro seed hseed
    cases hseed
    simp [Value.flat]
  step := by
    intro accumulator value next _ _ hnext
    cases hnext
    simp [Value.flat]

theorem take_conserves (count : Nat) {input tail : Bytes} {value : Value}
    (h : (Primitive.take count).parse input = .ok (.matched value tail)) :
    value.flat ++ tail = input := by
  simp only [Primitive.take, Except.ok.injEq] at h
  split at h
  · cases h
    simp [Value.flat]
  · cases h

-- All that a parse of an element may come to
def element : List (Grammar Unit) :=
  [.map "element" .some (.rule ()), .rule (), elements (),
    .sequence [.byte 40, .many (.bounded 2) (.rule ()), .byte 41], .byte 40,
    .many (.bounded 2) (.rule ()), .byte 41, word,
    .both (.notFollowedBy (.satisfy (· = 41))) (.primitive (.take 1)),
    .notFollowedBy (.satisfy (· = 41)), .satisfy (· = 41), .primitive (.take 1)]

theorem element_conserves : ∀ part ∈ element, part.Conserves elements := by
  have hsome : (map "element" .some (.rule ())).Conserves elements := by
    intro value _
    rw [Value.flat]
  have htake : (primitive (.take 1)).Conserves elements := fun _ _ _ => take_conserves 1
  simp only [element, List.forall_mem_cons]
  exact ⟨hsome, trivial, trivial, trivial, trivial, trivial, trivial, word_conserves, trivial,
    trivial, trivial, htake, by simp⟩

theorem flat_append_tail_elements :
    ∃ trace value, parser elements 14 (.map "element" .some (.rule ())) [40, 97, 98, 41, 41] =
        .ended trace (.ok (.matched value [41])) ∧
      value.flat ++ [41] = [40, 97, 98, 41, 41] := by
  have h : parser elements 14 (.map "element" .some (.rule ())) [40, 97, 98, 41, 41] =
    .ended _ (.ok (.matched _ [41])) := rfl
  refine ⟨_, _, h, flat_append_tail ?_ h⟩
  intro part hpart
  have hmem := hpart.mem_of_closed element (by simp [element, elements, word, parts])
    (by simp [element])
  exact element_conserves part hmem

end ByteGrammar.Grammar

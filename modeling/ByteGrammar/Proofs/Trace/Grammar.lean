import ByteGrammar.Proofs.Grammar.Reach
import ByteGrammar.Proofs.Trace.Law

namespace ByteGrammar

variable {ρ α : Type} {rules : ρ → Grammar ρ} {law : TraceLaw rules}

-- What a law needs of a primitive: that it leads from places to places
def TraceLaw.Admits (law : TraceLaw rules) (given : Primitive) : Prop :=
  ∀ (input tail : Bytes) (value : Value),
    law.place input → given.parse input = .ok (.matched value tail) → law.place tail

-- The calls of storages, functions and primitives. Each is an event that is calm if the call
-- succeeds and begins a raise if it fails.

namespace Storage

theorem refusal_leaves {storage : Storage α} {items : Array α} {value : α} {error : StorageError}
    (h : storage.room items value = .error error) :
    Event.Leaves (ρ := ρ) (.pushed items.size (.error error)) storage.refusal := by
  cases storage with
  | bounded limit =>
    simp only [room] at h
    split at h
    · cases h
    · cases h
      exact .sequenceFull items.size limit
  | heap => exact .nothing _
  | arena => exact .nothing _
  | fullArena => exact .nothing _
  | custom empty room => exact .nothing _

theorem allocate_obeys (storage : Storage α) : storage.allocate.Obeys law fun _ => True := by
  unfold allocate
  cases storage.empty with
  | ok _ => exact (Run.report_obeys (.allocated (.ok ())) rfl rfl).bind fun _ _ => .pure trivial
  | error error => exact law.final_raise (.intro (.allocated (.error error)) [] _ rfl (.nothing _))

theorem push_obeys (storage : Storage α) (items : Array α) (value : α) :
    (storage.push items value).Obeys law fun _ => True := by
  unfold push
  cases hroom : storage.room items value with
  | ok _ =>
    exact (Run.report_obeys (.pushed items.size (.ok ())) rfl rfl).bind fun _ _ => .pure trivial
  | error error => exact law.final_raise (.intro _ storage.refusal _ rfl (refusal_leaves hroom))

end Storage

namespace Parser

theorem finish_obeys (items : Array α) :
    (finish items : Run (Note ρ) (List α)).Obeys law fun _ => True :=
  (Run.report_obeys (.sequenceFinished items.size) rfl rfl).bind fun _ _ => .pure trivial

theorem Obeys.many {inner : Parser (Note ρ) α} (hinner : inner.Obeys law) (rounds : Nat)
    (storage : Storage α) : (many rounds storage inner).Obeys law :=
  (hinner.foldMany storage.allocate_obeys storage.push_obeys rounds).refine finish_obeys

theorem Obeys.many1 {inner : Parser (Note ρ) α} (hinner : inner.Obeys law) (rounds : Nat)
    (storage : Storage α) : (many1 rounds storage inner).Obeys law :=
  (hinner.foldMany1 storage.allocate_obeys storage.push_obeys rounds).refine finish_obeys

end Parser

namespace Grammar

theorem noting_obeys (note : Except Error Value → Note ρ)
    (hcalm : ∀ value, (Event.note (note (.ok value))).Calm)
    (hentry : ∀ value, (Event.note (note (.ok value))).entered? = none)
    (hfails : ∀ error, (Event.note (note (.error error))).failure? = some error)
    (answer : Except Error Value) : (noting note answer).Obeys law fun _ => True := by
  cases answer with
  | ok value =>
    exact (Run.report_obeys _ (hcalm value) (hentry value)).bind fun _ _ => .pure trivial
  | error error => exact law.final_raise (.intro _ [] error (hfails error) (.nothing _))

theorem called_obeys (label : String) (answer : Except Error Value) :
    (noting (.called label) answer).Obeys law fun _ => True :=
  noting_obeys (.called label) (fun _ => rfl) (fun _ => rfl) (fun _ => rfl) answer

theorem seeded_obeys (answer : Except Error Value) :
    (noting .seeded answer).Obeys law fun _ => True :=
  noting_obeys .seeded (fun _ => rfl) (fun _ => rfl) (fun _ => rfl) answer

theorem combined_obeys (accumulator value : Value) (answer : Except Error Value) :
    (noting (.combined accumulator value) answer).Obeys law fun _ => True :=
  noting_obeys (.combined accumulator value) (fun _ => rfl) (fun _ => rfl) (fun _ => rfl) answer

theorem testing_obeys (test : UInt8 → Bool) (byte : UInt8) :
    (testing test byte).Obeys law fun _ => True :=
  (Run.report_obeys (.note (.tested byte)) rfl rfl).bind fun _ _ => .pure trivial

theorem consulting_obeys {given : Primitive} (hadmits : law.Admits given) :
    (consulting given).Obeys law := by
  intro input hplace
  unfold consulting Primitive.parser
  cases hparse : given.parse input with
  | ok outcome =>
    have htail : outcome.LeavesIn law.place := by
      cases outcome with
      | matched value tail => exact hadmits input tail value hplace hparse
      | noMatch => trivial
    apply (Run.report_obeys (.note (.consulted (.ok outcome))) rfl rfl).bind
    intro _ _
    split
    · exact (Run.report_obeys .reachedEnd rfl rfl).bind fun _ _ => .pure htail
    · exact .pure htail
  | error error =>
    cases given.needsMore input with
    | true => exact law.final_raise (.intro _ [.reachedEnd] error rfl (.reachedEnd _))
    | false => exact law.final_raise (.intro _ [] error rfl (.nothing _))

theorem layer_obeys {rounds : Nat} {part : Grammar ρ → Parser (Note ρ) Value} (grammar : Grammar ρ)
    (hparts : ∀ inner ∈ grammar.parts rules, (part inner).Obeys law)
    (hprimitive : ∀ given, grammar = .primitive given → law.Admits given) :
    (layer rules rounds part grammar).Obeys law := by
  cases grammar with
  | literal expected => exact (Parser.literal_obeys expected).map _
  | anyByte => exact Parser.anyByte_obeys.map _
  | byte expected => exact (Parser.byte_obeys expected).map _
  | satisfy test => exact (Parser.satisfyRun_obeys (testing_obeys test)).map _
  | atEnd => exact Parser.atEnd_obeys.map _
  | sequence parts =>
    exact (Parser.Obeys.sequence (List.forall_mem_map.mpr hparts)).map _
  | both first second =>
    exact ((hparts first (by simp [parts])).both (hparts second (by simp [parts]))).map _
  | choice arms => exact Parser.Obeys.choice (List.forall_mem_map.mpr hparts)
  | orElse first second =>
    exact (hparts first (by simp [parts])).orElse (hparts second (by simp [parts]))
  | map label f body =>
    exact (hparts body (by simp [parts])).refine fun _ => called_obeys label _
  | refine label f body =>
    exact (hparts body (by simp [parts])).refine fun _ => called_obeys label _
  | optional body => exact (hparts body (by simp [parts])).optional.map _
  | notFollowedBy body => exact (hparts body (by simp [parts])).notFollowedBy.map _
  | followedBy body => exact (hparts body (by simp [parts])).followedBy.map _
  | between opening body closing =>
    exact (hparts opening (by simp [parts])).between (hparts body (by simp [parts]))
      (hparts closing (by simp [parts]))
  | foldMany init combine body =>
    exact (hparts body (by simp [parts])).foldMany (seeded_obeys init)
      (fun accumulator value => combined_obeys accumulator value _) rounds
  | foldMany1 init combine body =>
    exact (hparts body (by simp [parts])).foldMany1 (seeded_obeys init)
      (fun accumulator value => combined_obeys accumulator value _) rounds
  | many storage body => exact ((hparts body (by simp [parts])).many rounds storage).map _
  | many1 storage body => exact ((hparts body (by simp [parts])).many1 rounds storage).map _
  | delay body => exact (hparts body (by simp [parts])).delay
  | rule name => exact (hparts (rules name) (by simp [parts])).delay
  | group body => exact hparts body (by simp [parts])
  | probe label body => exact hparts body (by simp [parts])
  | primitive given => exact consulting_obeys (hprimitive given rfl)

-- A law that admits all primitives of a grammar holds of every parse. The induction is on the
-- depth, since a rule's body is no smaller than the rule.
theorem parser_obeys (law : TraceLaw rules) (depth : Nat) (grammar : Grammar ρ)
    (hprimitives : ∀ given, Reaches rules grammar (.primitive given) → law.Admits given) :
    (parser rules depth grammar).Obeys law := by
  induction depth generalizing grammar with
  | zero => exact fun _ _ => trivial
  | succ depth ih =>
    intro input hplace
    have hlayer : (layer rules depth (parser rules depth) grammar).Obeys law := by
      apply layer_obeys grammar
      · intro inner hinner
        exact ih inner fun given hgiven => hprimitives given (.of_part hinner hgiven)
      · rintro given rfl
        exact hprimitives given (.refl _)
    have hinside := hlayer input hplace
    have hparser := parser_succ rules depth grammar input
    rw [hparser]
    cases hrun : layer rules depth (parser rules depth) grammar input with
    | unfinished => trivial
    | ended inside result =>
      rw [hrun] at hinside hparser
      cases result with
      | ok outcome => exact ⟨law.calm_enter hplace hparser hinside.1, hinside.2⟩
      | error error => exact law.final_enter hplace hparser hinside

end Grammar

end ByteGrammar

import ByteGrammar.Grammar.Parse
import ByteGrammar.Proofs.Grammar.Reach
import ByteGrammar.Proofs.Mirror.Parser

namespace ByteGrammar

variable {ρ : Type}

namespace Grammar

-- Whether a grammar could read an input differently if there were more of it. Those that only
-- run others leave this to them.
def TouchesEnd : Grammar ρ → Bytes → Prop
  | literal expected, input => input <+: expected ∧ input ≠ expected
  | anyByte, input => input = []
  | byte _, input => input = []
  | satisfy _, input => input = []
  | atEnd, input => input = []
  | primitive given, input => given.needsMore input = true
  | _, _ => False

instance : (grammar : Grammar ρ) → (input : Bytes) → Decidable (grammar.TouchesEnd input)
  | literal expected, input => inferInstanceAs (Decidable (input <+: expected ∧ input ≠ expected))
  | anyByte, input | byte _, input | satisfy _, input | atEnd, input =>
    inferInstanceAs (Decidable (input = []))
  | primitive given, input => inferInstanceAs (Decidable (given.needsMore input = true))
  | sequence _, _ | both _ _, _ | choice _, _ | orElse _ _, _ | map _ _ _, _ | refine _ _ _, _
  | optional _, _ | notFollowedBy _, _ | followedBy _, _ | between _ _ _, _ | foldMany _ _ _, _
  | foldMany1 _ _ _, _ | many _ _, _ | many1 _ _, _ | delay _, _ | rule _, _ | group _, _
  | probe _ _, _ => inferInstanceAs (Decidable False)

-- Where a repetition keeps its elements
def storage? : Grammar ρ → Option (Storage Value)
  | many storage _ => some storage
  | many1 storage _ => some storage
  | _ => none

-- Two grammars with the same head and with parts, storages and functions that correspond.
-- Functions correspond if they answer alike on corresponding values.
inductive Alike (part : Grammar ρ → Grammar ρ → Prop)
    (storages : Storage Value → Storage Value → Prop) (values : Value → Value → Prop) :
    Grammar ρ → Grammar ρ → Prop
  | literal (expected : Bytes) : Alike part storages values (literal expected) (literal expected)
  | anyByte : Alike part storages values anyByte anyByte
  | byte (expected : UInt8) : Alike part storages values (byte expected) (byte expected)
  | satisfy (test : UInt8 → Bool) : Alike part storages values (satisfy test) (satisfy test)
  | atEnd : Alike part storages values atEnd atEnd
  | sequence (parts others : List (Grammar ρ)) (hparts : List.Forall₂ part parts others) :
      Alike part storages values (sequence parts) (sequence others)
  | both (first second first' second' : Grammar ρ) (hfirst : part first first')
      (hsecond : part second second') :
      Alike part storages values (both first second) (both first' second')
  | choice (arms others : List (Grammar ρ)) (harms : List.Forall₂ part arms others) :
      Alike part storages values (choice arms) (choice others)
  | orElse (first second first' second' : Grammar ρ) (hfirst : part first first')
      (hsecond : part second second') :
      Alike part storages values (orElse first second) (orElse first' second')
  | map (label : String) (f f' : Value → Value) (body body' : Grammar ρ)
      (hf : ∀ value other, values value other → values (f value) (f' other))
      (hbody : part body body') :
      Alike part storages values (map label f body) (map label f' body')
  | refine (label : String) (f f' : Value → Except Error Value) (body body' : Grammar ρ)
      (hf : ∀ value other, values value other → SameAnswer values (f value) (f' other))
      (hbody : part body body') :
      Alike part storages values (refine label f body) (refine label f' body')
  | optional (body body' : Grammar ρ) (hbody : part body body') :
      Alike part storages values (optional body) (optional body')
  | notFollowedBy (body body' : Grammar ρ) (hbody : part body body') :
      Alike part storages values (notFollowedBy body) (notFollowedBy body')
  | followedBy (body body' : Grammar ρ) (hbody : part body body') :
      Alike part storages values (followedBy body) (followedBy body')
  | between (opening body closing opening' body' closing' : Grammar ρ)
      (hopening : part opening opening') (hbody : part body body')
      (hclosing : part closing closing') :
      Alike part storages values (between opening body closing) (between opening' body' closing')
  | foldMany (init init' : Except Error Value)
      (combine combine' : Value → Value → Except Error Value)
      (body body' : Grammar ρ) (hinit : SameAnswer values init init')
      (hcombine : ∀ accumulator other value another, values accumulator other →
        values value another →
        SameAnswer values (combine accumulator value) (combine' other another))
      (hbody : part body body') :
      Alike part storages values (foldMany init combine body) (foldMany init' combine' body')
  | foldMany1 (init init' : Except Error Value)
      (combine combine' : Value → Value → Except Error Value)
      (body body' : Grammar ρ) (hinit : SameAnswer values init init')
      (hcombine : ∀ accumulator other value another, values accumulator other →
        values value another →
        SameAnswer values (combine accumulator value) (combine' other another))
      (hbody : part body body') :
      Alike part storages values (foldMany1 init combine body) (foldMany1 init' combine' body')
  | many (storage storage' : Storage Value) (body body' : Grammar ρ)
      (hstorage : storages storage storage') (hbody : part body body') :
      Alike part storages values (many storage body) (many storage' body')
  | many1 (storage storage' : Storage Value) (body body' : Grammar ρ)
      (hstorage : storages storage storage') (hbody : part body body') :
      Alike part storages values (many1 storage body) (many1 storage' body')
  | delay (body body' : Grammar ρ) (hbody : part body body') :
      Alike part storages values (delay body) (delay body')
  | rule (name : ρ) : Alike part storages values (rule name) (rule name)
  | group (body body' : Grammar ρ) (hbody : part body body') :
      Alike part storages values (group body) (group body')
  | probe (label : String) (body body' : Grammar ρ) (hbody : part body body') :
      Alike part storages values (probe label body) (probe label body')
  | primitive (given : Primitive) : Alike part storages values (primitive given) (primitive given)

theorem Alike.of_eq (grammar : Grammar ρ) : Alike Eq Eq Eq grammar grammar := by
  have hanswer (answer : Except Error Value) : SameAnswer Eq answer answer :=
    .of_eq (fun _ => rfl) answer
  cases grammar with
  | sequence parts => exact .sequence _ _ (List.forall₂_eq_eq_eq ▸ rfl)
  | choice arms => exact .choice _ _ (List.forall₂_eq_eq_eq ▸ rfl)
  | map label f body => exact .map _ _ _ _ _ (fun _ _ h => congrArg f h) rfl
  | refine label f body => exact .refine _ _ _ _ _ (fun value _ h => h ▸ hanswer (f value)) rfl
  | foldMany init combine body =>
    exact .foldMany _ _ _ _ _ _ (hanswer init) (SameAnswer.combine combine) rfl
  | foldMany1 init combine body =>
    exact .foldMany1 _ _ _ _ _ _ (hanswer init) (SameAnswer.combine combine) rfl
  | _ => constructor <;> rfl

theorem Alike.flip {part : Grammar ρ → Grammar ρ → Prop}
    {storages : Storage Value → Storage Value → Prop} {values : Value → Value → Prop}
    {grammar other : Grammar ρ} (h : Alike part storages values grammar other) :
    Alike (flip part) (flip storages) (flip values) other grammar := by
  cases h with
  | sequence parts others hparts => exact .sequence _ _ hparts.flip
  | choice arms others harms => exact .choice _ _ harms.flip
  | map label f f' body body' hf hbody =>
    exact .map _ _ _ _ _ (fun value other hvalue => hf other value hvalue) hbody
  | refine label f f' body body' hf hbody =>
    exact .refine _ _ _ _ _ (fun value other hvalue => (hf other value hvalue).flip) hbody
  | foldMany init init' combine combine' body body' hinit hcombine hbody =>
    refine .foldMany _ _ _ _ _ _ hinit.flip ?_ hbody
    intro accumulator other value another haccumulator hvalue
    exact (hcombine other accumulator another value haccumulator hvalue).flip
  | foldMany1 init init' combine combine' body body' hinit hcombine hbody =>
    refine .foldMany1 _ _ _ _ _ _ hinit.flip ?_ hbody
    intro accumulator other value another haccumulator hvalue
    exact (hcombine other accumulator another value haccumulator hvalue).flip
  | _ => constructor <;> assumption

section Parts

variable {rules others : ρ → Grammar ρ} {related : Grammar ρ → Grammar ρ → Prop}
  {storages : Storage Value → Storage Value → Prop} {values : Value → Value → Prop}
  {grammar other inner : Grammar ρ}

end Parts

end Grammar

-- The same call of a function, but for related values
inductive Note.Moved (values : Value → Value → Prop) : Note ρ → Note ρ → Prop
  | tested (byte : UInt8) : Moved values (.tested byte) (.tested byte)
  | called (label : String) (answer other : Except Error Value)
      (hanswer : SameAnswer values answer other) :
      Moved values (.called label answer) (.called label other)
  | seeded (answer other : Except Error Value) (hanswer : SameAnswer values answer other) :
      Moved values (.seeded answer) (.seeded other)
  | combined (accumulator accumulator' value value' : Value) (answer other : Except Error Value)
      (haccumulator : values accumulator accumulator') (hvalue : values value value')
      (hanswer : SameAnswer values answer other) :
      Moved values (.combined accumulator value answer) (.combined accumulator' value' other)

theorem Note.Moved.eq {first second : Note ρ} (h : Note.Moved Eq first second) :
    second = first := by
  cases h with
  | tested byte => rfl
  | called label answer other hanswer => rw [hanswer.eq]
  | seeded answer other hanswer => rw [hanswer.eq]
  | combined accumulator _ value _ answer other haccumulator hvalue hanswer =>
    rw [haccumulator, hvalue, hanswer.eq]

-- Related values may stand in each other's place in tuples, lists and options
structure Value.Congruence (values : Value → Value → Prop) : Prop where
  refl (value : Value) : values value value
  tuple {items others : List Value} :
    List.Forall₂ values items others → values (.tuple items) (.tuple others)
  list {items others : List Value} :
    List.Forall₂ values items others → values (.list items) (.list others)
  some {value other : Value} : values value other → values (.some value) (.some other)

theorem Value.congruence_eq : Value.Congruence Eq where
  refl _ := rfl
  tuple h := by rw [List.forall₂_eq_eq_eq] at h; rw [h]
  list h := by rw [List.forall₂_eq_eq_eq] at h; rw [h]
  some h := by rw [h]

-- What makes one layer of a grammar mirror another with the same head, whatever their parts are.
-- It has to hold of what is reached from the whole grammar only.
structure LayerLaws (rules : ρ → Grammar ρ) (whole : Grammar ρ) extends
    Mirror (Note ρ) (Note ρ) where
  values : Value → Value → Prop
  storages : Storage Value → Storage Value → Prop
  congruence : Value.Congruence values
  traces_note {first second : Note ρ} : Note.Moved values first second →
    traces [.note first] [.note second]
  allocate {grammar : Grammar ρ} {storage other : Storage Value} :
    Grammar.Reaches rules whole grammar → grammar.storage? = some storage →
    storages storage other →
    storage.allocate.Mirrored toMirror (Parser.SameItems values) other.allocate
  push {grammar : Grammar ρ} {storage other : Storage Value} {items others : Array Value}
    {value another : Value} :
    Grammar.Reaches rules whole grammar → grammar.storage? = some storage →
    storages storage other → Parser.SameItems values items others → values value another →
    (storage.push items value).Mirrored toMirror (Parser.SameItems values)
      (other.push others another)
  consult {given : Primitive} (input : Bytes) : Grammar.Reaches rules whole (.primitive given) →
    (more = [] ∨ ¬ given.needsMore input = true) →
    (Grammar.consulting given input).Mirrored toMirror (Outcome.Moved more values)
      (Grammar.consulting given (input ++ more))

-- What makes the parses of a grammar mirror those of a related one
structure Simulation (rules others : ρ → Grammar ρ) (whole : Grammar ρ) extends
    LayerLaws rules whole where
  related : Grammar ρ → Grammar ρ → Prop
  related_rule (name : ρ) : Grammar.Reaches rules whole (.rule name) →
    related (rules name) (others name)
  alike {grammar other : Grammar ρ} : Grammar.Reaches rules whole grammar →
    related grammar other → Grammar.Alike related storages values grammar other
  enter {grammar other : Grammar ρ} (input : Bytes) : Grammar.Reaches rules whole grammar →
    related grammar other → traces [.note (.entered grammar input)]
      [.note (.entered other (input ++ more))]
  enough (grammar : Grammar ρ) (input : Bytes) : excuse [.note (.entered grammar input)] ∨
    more = [] ∨ ¬ grammar.TouchesEnd input

-- What a primitive traces itself
def Primitive.ends {ν : Type} (given : Primitive) (input : Bytes) : List (Event ν) :=
  if given.needsMore input then [.reachedEnd] else []

theorem Primitive.parser_eq_after {ν : Type} (given : Primitive) (input : Bytes) :
    (given.parser input : Run ν (Outcome Value)) =
      (Run.ofExcept (given.parse input)).after (given.ends input) := by
  unfold parser ends
  cases given.needsMore input with
  | true => rfl
  | false => exact (Run.after_nil _).symm

variable {rules : ρ → Grammar ρ} {whole : Grammar ρ}

-- What makes layers mirror each other that differ in their parts only
def LayerLaws.self (mirror : Mirror (Note ρ) (Note ρ))
    (hnote : ∀ note, Note.Moved Eq note note → mirror.traces [.note note] [.note note])
    (hallocated : ∀ answer, mirror.traces [.allocated answer] [.allocated answer])
    (hpushed : ∀ size answer, mirror.traces [.pushed size answer] [.pushed size answer])
    (hfull : ∀ limit, mirror.traces [.sequenceFull limit] [.sequenceFull limit])
    (hconsult : ∀ given input, Grammar.Reaches rules whole (.primitive given) →
      (mirror.more = [] ∨ ¬ given.needsMore input = true) →
      (Grammar.consulting given input).Mirrored mirror (Outcome.Moved mirror.more Eq)
        (Grammar.consulting given (input ++ mirror.more))) : LayerLaws rules whole where
  toMirror := mirror
  values := Eq
  storages := Eq
  congruence := Value.congruence_eq
  traces_note h := by
    obtain rfl := h.eq
    exact hnote _ h
  allocate := by
    rintro _ storage _ - - rfl
    exact Parser.allocate_mirrored rfl (hallocated storage.empty)
  push := by
    rintro _ storage _ items others value _ - - rfl hitems rfl
    obtain rfl : items = others := Array.toList_inj.mp (List.forall₂_eq_eq_eq ▸ hitems)
    apply Parser.push_mirrored hitems rfl rfl (hpushed items.size (storage.room items value))
    intro _ _
    cases storage with
    | bounded limit => exact hfull limit
    | _ => exact mirror.traces_nil
  consult input := hconsult _ input

-- What makes two parses of one grammar mirror each other, where the second may have more input
def Simulation.self (mirror : Mirror (Note ρ) (Note ρ))
    (henter : ∀ grammar input, mirror.traces [.note (.entered grammar input)]
      [.note (.entered grammar (input ++ mirror.more))])
    (henough : ∀ grammar input, mirror.excuse [.note (.entered grammar input)] ∨
      mirror.more = [] ∨ ¬ grammar.TouchesEnd input)
    (hnote : ∀ note, Note.Moved Eq note note → mirror.traces [.note note] [.note note])
    (hallocated : ∀ answer, mirror.traces [.allocated answer] [.allocated answer])
    (hpushed : ∀ size answer, mirror.traces [.pushed size answer] [.pushed size answer])
    (hfull : ∀ limit, mirror.traces [.sequenceFull limit] [.sequenceFull limit])
    (hconsult : ∀ given input, Grammar.Reaches rules whole (.primitive given) →
      (mirror.more = [] ∨ ¬ given.needsMore input = true) →
      (Grammar.consulting given input).Mirrored mirror (Outcome.Moved mirror.more Eq)
        (Grammar.consulting given (input ++ mirror.more))) : Simulation rules rules whole where
  toLayerLaws := .self mirror hnote hallocated hpushed hfull hconsult
  related := Eq
  related_rule _ _ := rfl
  alike := by
    rintro grammar _ - rfl
    exact .of_eq grammar
  enter := by
    rintro grammar _ input - rfl
    exact henter grammar input
  enough := henough

namespace Grammar

variable {rules others : ρ → Grammar ρ} {whole grammar other : Grammar ρ}

theorem noting_mirrored {mirror : Mirror (Note ρ) (Note ρ)} {values : Value → Value → Prop}
    {note other : Except Error Value → Note ρ} {answer another : Except Error Value}
    (hnote : mirror.traces [.note (note answer)] [.note (other another)])
    (hanswer : SameAnswer values answer another) :
    (noting note answer).Mirrored mirror values (noting other another) :=
  (Run.report_mirrored hnote).bind fun _ _ _ => Run.ofExcept_mirrored hanswer

theorem consulting_mirrored {mirror : Mirror (Note ρ) (Note ρ)} {values : Value → Value → Prop}
    {given : Primitive} {input : Bytes}
    (hanswer : SameAnswer (Outcome.Moved mirror.more values) (given.parse input)
      (given.parse (input ++ mirror.more)))
    (hcall : mirror.traces [.note (.consulted (given.parse input))]
      [.note (.consulted (given.parse (input ++ mirror.more)))])
    (hends : mirror.traces (given.ends input) (given.ends (input ++ mirror.more))) :
    (consulting given input).Mirrored mirror (Outcome.Moved mirror.more values)
      (consulting given (input ++ mirror.more)) := by
  unfold consulting
  rw [Primitive.parser_eq_after, Primitive.parser_eq_after]
  apply (Run.report_mirrored hcall).bind
  intro _ _ _
  exact (Run.ofExcept_mirrored hanswer).after hends

-- A primitive answers alike on one input
theorem consulting_mirrored_self {mirror : Mirror (Note ρ) (Note ρ)} {values : Value → Value → Prop}
    (hmore : mirror.more = []) (hvalues : ∀ value, values value value)
    (hcall : ∀ answer, mirror.traces [.note (.consulted answer)] [.note (.consulted answer)])
    (given : Primitive) (input : Bytes) :
    (consulting given input).Mirrored mirror (Outcome.Moved mirror.more values)
      (consulting given (input ++ mirror.more)) := by
  apply consulting_mirrored <;> rw [hmore, List.append_nil]
  · exact .of_eq (.of_eq hvalues) _
  · exact hcall (given.parse input)
  · unfold Primitive.ends
    split
    · exact mirror.traces_moved .reachedEnd
    · exact mirror.traces_nil

section

variable (laws : LayerLaws rules whole) {answer another : Except Error Value}

theorem testing_mirrored (test : UInt8 → Bool) (byte : UInt8) :
    (testing test byte).Mirrored laws.toMirror Eq (testing test byte) :=
  (Run.report_mirrored (laws.traces_note (.tested byte))).bind fun _ _ _ => .pure rfl

theorem seeded_mirrored (hanswer : SameAnswer laws.values answer another) :
    (noting .seeded answer).Mirrored laws.toMirror laws.values
      (noting .seeded another) :=
  noting_mirrored (laws.traces_note (.seeded answer another hanswer)) hanswer

theorem called_mirrored (label : String) (hanswer : SameAnswer laws.values answer another) :
    (noting (.called label) answer).Mirrored laws.toMirror laws.values
      (noting (.called label) another) :=
  noting_mirrored (laws.traces_note (.called label answer another hanswer)) hanswer

theorem combined_mirrored {combine combine' : Value → Value → Except Error Value}
    (hcombine : ∀ accumulator other value another, laws.values accumulator other →
      laws.values value another →
      SameAnswer laws.values (combine accumulator value) (combine' other another))
    (accumulator other value another : Value) (haccumulator : laws.values accumulator other)
    (hvalue : laws.values value another) :
    (noting (.combined accumulator value) (combine accumulator value)).Mirrored laws.toMirror
      laws.values (noting (.combined other another) (combine' other another)) := by
  have hanswer := hcombine accumulator other value another haccumulator hvalue
  have hnote := Note.Moved.combined (ρ := ρ) _ _ _ _ _ _ haccumulator hvalue hanswer
  exact noting_mirrored (laws.traces_note hnote) hanswer

end

theorem values_ofParts (laws : LayerLaws rules whole) {items others : List Value}
    (h : List.Forall₂ laws.values items others) :
    laws.values (.ofParts items) (.ofParts others) := by
  cases h with
  | nil => exact laws.congruence.refl .unit
  | cons hvalue hrest => exact laws.congruence.tuple (.cons hvalue hrest)

theorem values_ofOption (laws : LayerLaws rules whole) {value other : Option Value}
    (h : Option.Rel laws.values value other) :
    laws.values (.ofOption value) (.ofOption other) := by
  cases h with
  | some hvalue => exact laws.congruence.some hvalue
  | none => exact laws.congruence.refl .none

theorem parts_mirrored {mirror : Mirror (Note ρ) (Note ρ)} {values : Value → Value → Prop}
    {related : Grammar ρ → Grammar ρ → Prop} {first second : Grammar ρ → Parser (Note ρ) Value}
    {parts others : List (Grammar ρ)} (h : List.Forall₂ related parts others)
    (hparts : ∀ part another, part ∈ parts → another ∈ others → related part another →
      (first part).Mirrored mirror values (second another)) :
    List.Forall₂ (Parser.Mirrored mirror values) (parts.map first) (others.map second) := by
  induction h with
  | nil => exact .nil
  | cons hpart _ ih =>
    refine .cons (hparts _ _ List.mem_cons_self List.mem_cons_self hpart) (ih ?_)
    intro part another hmem hother
    exact hparts part another (List.mem_cons_of_mem _ hmem) (List.mem_cons_of_mem _ hother)

theorem layer_mirrored (laws : LayerLaws rules whole) {related : Grammar ρ → Grammar ρ → Prop}
    (hreach : Reaches rules whole grammar)
    (halike : Alike related laws.storages laws.values grammar other)
    (hrule : ∀ name, grammar = rule name → related (rules name) (others name))
    {first second : Grammar ρ → Parser (Note ρ) Value}
    (hparts : ∀ part another, part ∈ grammar.parts rules → another ∈ other.parts others →
      related part another → (first part).Mirrored laws.toMirror laws.values (second another))
    (rounds : Nat) {input : Bytes} (hinput : laws.more = [] ∨ ¬ grammar.TouchesEnd input) :
    (layer rules rounds first grammar input).Mirrored laws.toMirror
      (Outcome.Moved laws.more laws.values)
      (layer others rounds second other (input ++ laws.more)) := by
  -- a byte that is read, and the unit that ends or looks ahead, are the same in both
  have hsame {α : Type} {f : α → Value} (value other : α) (h : value = other) :
      laws.values (f value) (f other) := h ▸ laws.congruence.refl (f value)
  cases halike with
  | literal expected => exact Parser.map_mirrored (Parser.literal_mirrored expected hinput) hsame
  | anyByte => exact Parser.map_mirrored (Parser.anyByte_mirrored hinput) hsame
  | byte expected => exact Parser.map_mirrored (Parser.byte_mirrored expected hinput) hsame
  | satisfy test =>
    exact Parser.map_mirrored (Parser.satisfyRun_mirrored (testing_mirrored laws test) hinput) hsame
  | atEnd => exact Parser.map_mirrored (Parser.atEnd_mirrored hinput) hsame
  | sequence parts others hlist =>
    exact (Parser.Mirrored.sequence (parts_mirrored hlist hparts)).map
      (fun _ _ => values_ofParts laws) input
  | both first second first' second' hfirst hsecond =>
    have hleft := hparts first first' (by simp [parts]) (by simp [parts]) hfirst
    have hright := hparts second second' (by simp [parts]) (by simp [parts]) hsecond
    exact (hleft.both hright).map
      (fun _ _ hpair => laws.congruence.tuple (.cons hpair.1 (.cons hpair.2 .nil))) input
  | choice arms others hlist => exact Parser.Mirrored.choice (parts_mirrored hlist hparts) input
  | orElse first second first' second' hfirst hsecond =>
    have hleft := hparts first first' (by simp [parts]) (by simp [parts]) hfirst
    have hright := hparts second second' (by simp [parts]) (by simp [parts]) hsecond
    exact hleft.orElse hright input
  | map label f f' body body' hf hbody =>
    exact (hparts _ _ (by simp [parts]) (by simp [parts]) hbody).refine
      (fun value other hvalue => called_mirrored laws label (.ok _ _ (hf value other hvalue))) input
  | refine label f f' body body' hf hbody =>
    exact (hparts _ _ (by simp [parts]) (by simp [parts]) hbody).refine
      (fun value other hvalue => called_mirrored laws label (hf value other hvalue)) input
  | optional body body' hbody =>
    exact (hparts _ _ (by simp [parts]) (by simp [parts]) hbody).optional.map
      (fun _ _ => values_ofOption laws) input
  | notFollowedBy body body' hbody =>
    exact (hparts _ _ (by simp [parts]) (by simp [parts]) hbody).notFollowedBy.map
      (fun _ _ _ => laws.congruence.refl .unit) input
  | followedBy body body' hbody =>
    exact (hparts _ _ (by simp [parts]) (by simp [parts]) hbody).followedBy.map
      (fun _ _ _ => laws.congruence.refl .unit) input
  | between opening body closing opening' body' closing' hopening hbody hclosing =>
    have hleft := hparts opening opening' (by simp [parts]) (by simp [parts]) hopening
    have hmiddle := hparts body body' (by simp [parts]) (by simp [parts]) hbody
    have hright := hparts closing closing' (by simp [parts]) (by simp [parts]) hclosing
    exact hleft.between hmiddle hright input
  | foldMany init init' combine combine' body body' hinit hcombine hbody =>
    exact (hparts _ _ (by simp [parts]) (by simp [parts]) hbody).foldMany
      (seeded_mirrored laws hinit) (combined_mirrored laws hcombine) rounds input
  | foldMany1 init init' combine combine' body body' hinit hcombine hbody =>
    exact (hparts _ _ (by simp [parts]) (by simp [parts]) hbody).foldMany1
      (seeded_mirrored laws hinit) (combined_mirrored laws hcombine) rounds input
  | many storage storage' body body' hstorage hbody =>
    have hmany := (hparts _ _ (by simp [parts]) (by simp [parts]) hbody).many
      (laws.allocate hreach rfl hstorage)
      (fun _ _ _ _ hitems hvalue => laws.push hreach rfl hstorage hitems hvalue) rounds
    exact hmany.map (fun _ _ => laws.congruence.list) input
  | many1 storage storage' body body' hstorage hbody =>
    have hmany := (hparts _ _ (by simp [parts]) (by simp [parts]) hbody).many1
      (laws.allocate hreach rfl hstorage)
      (fun _ _ _ _ hitems hvalue => laws.push hreach rfl hstorage hitems hvalue) rounds
    exact hmany.map (fun _ _ => laws.congruence.list) input
  | delay body body' hbody =>
    exact (hparts _ _ (by simp [parts]) (by simp [parts]) hbody).delay input
  | rule name =>
    exact (hparts _ _ (by simp [parts]) (by simp [parts]) (hrule name rfl)).delay input
  | group body body' hbody => exact hparts _ _ (by simp [parts]) (by simp [parts]) hbody input
  | probe label body body' hbody => exact hparts _ _ (by simp [parts]) (by simp [parts]) hbody input
  | primitive given => exact laws.consult input hreach hinput

-- The parses of related grammars mirror each other. The induction is on the depth, since a rule's
-- body is no smaller than the rule.
theorem parser_mirrored (simulation : Simulation rules others whole) (depth : Nat)
    (hreach : Reaches rules whole grammar) (hrelated : simulation.related grammar other) :
    (parser rules depth grammar).Mirrored simulation.toMirror simulation.values
      (parser others depth other) := by
  induction depth generalizing grammar other with
  | zero => exact fun _ _ _ h => nomatch h
  | succ depth ih =>
    intro input
    rcases simulation.enough grammar input with hexcuse | hinput
    · rw [parser_succ]
      exact .excused hexcuse _ _
    · apply (Run.report_mirrored (simulation.enter input hreach hrelated)).bind
      intro _ _ _
      apply layer_mirrored simulation.toLayerLaws hreach (simulation.alike hreach hrelated) _ _ depth
        hinput
      · rintro name rfl
        exact simulation.related_rule name hreach
      · intro part another hpart _ hanother
        exact ih (hreach.tail hpart) hanother

end Grammar

end ByteGrammar

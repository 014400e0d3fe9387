import ByteGrammar.Proofs.Trace.Failure

namespace ByteGrammar

variable {ρ α β γ : Type} {rules : ρ → Grammar ρ}

-- A law that traces obey piece by piece: `calm` is for what a run leaves that goes on,
-- `final` for what one leaves that ends with an error. Parts are run at a `place`, a kind
-- of inputs that has with each input all its suffixes. The law has to hold of an entry
-- only before the trace of a whole parse.
structure TraceLaw (rules : ρ → Grammar ρ) where
  place : Bytes → Prop
  calm : List (Event (Note ρ)) → Prop
  final : Error → List (Event (Note ρ)) → Prop
  place_suffix {input tail : Bytes} : place input → tail <:+ input → place tail
  calm_nil : calm []
  calm_append {first second : List (Event (Note ρ))} :
    calm first → calm second → calm (first ++ second)
  final_append {first second : List (Event (Note ρ))} {error : Error} :
    calm first → final error second → final error (first ++ second)
  calm_event {event : Event (Note ρ)} : event.Calm → event.entered? = none → calm [event]
  final_raise {trace : List (Event (Note ρ))} {error : Error} :
    Event.Raise trace error → final error trace
  calm_enter {depth : Nat} {grammar : Grammar ρ} {input : Bytes}
    {inside : List (Event (Note ρ))} {outcome : Outcome Value} :
    place input →
    grammar.parser rules depth input =
      .ended (.note (.entered grammar input) :: inside) (.ok outcome) →
    calm inside → calm (.note (.entered grammar input) :: inside)
  final_enter {depth : Nat} {grammar : Grammar ρ} {input : Bytes}
    {inside : List (Event (Note ρ))} {error : Error} :
    place input →
    grammar.parser rules depth input =
      .ended (.note (.entered grammar input) :: inside) (.error error) →
    final error inside → final error (.note (.entered grammar input) :: inside)

-- A law of the traces alone, however a run ends
def TraceLaw.always (place : Bytes → Prop) (holds : List (Event (Note ρ)) → Prop)
    (hplace : ∀ {input tail : Bytes}, place input → tail <:+ input → place tail)
    (hnil : holds [])
    (happend : ∀ {first second : List (Event (Note ρ))},
      holds first → holds second → holds (first ++ second))
    (hevent : ∀ {event : Event (Note ρ)}, event.Calm → event.entered? = none → holds [event])
    (hraise : ∀ {trace : List (Event (Note ρ))} {error : Error},
      Event.Raise trace error → holds trace)
    (henter : ∀ {depth : Nat} {grammar : Grammar ρ} {input : Bytes}
      {inside : List (Event (Note ρ))} {result : Except Error (Outcome Value)},
      place input →
      grammar.parser rules depth input =
        .ended (.note (.entered grammar input) :: inside) result →
      holds inside → holds (.note (.entered grammar input) :: inside)) : TraceLaw rules where
  place := place
  calm := holds
  final _ := holds
  place_suffix := hplace
  calm_nil := hnil
  calm_append := happend
  final_append := happend
  calm_event := hevent
  final_raise := hraise
  calm_enter := henter
  final_enter := henter

def Outcome.LeavesIn (place : Bytes → Prop) : Outcome α → Prop
  | matched _ tail => place tail
  | noMatch => True

namespace Run

variable {law : TraceLaw rules}

-- The trace obeys the law, and a value satisfies the postcondition
def Obeys (law : TraceLaw rules) (post : α → Prop) : Run (Note ρ) α → Prop
  | unfinished => True
  | ended trace (.ok value) => law.calm trace ∧ post value
  | ended trace (.error error) => law.final error trace

-- Where a law is one of the traces alone, it does not matter how the run has ended
theorem Obeys.holds {post : α → Prop} {trace : List (Event (Note ρ))} {result : Except Error α}
    (h : (ended trace result).Obeys law post) (hfinal : ∀ error, law.final error = law.calm) :
    law.calm trace := by
  cases result with
  | ok value => exact h.1
  | error error => exact hfinal error ▸ h

theorem Obeys.pure {post : α → Prop} {value : α} (h : post value) :
    (Pure.pure value : Run (Note ρ) α).Obeys law post := ⟨law.calm_nil, h⟩

theorem Obeys.after {post : α → Prop} {run : Run (Note ρ) α} {earlier : List (Event (Note ρ))}
    (hearlier : law.calm earlier) (hrun : run.Obeys law post) :
    (run.after earlier).Obeys law post := by
  cases run with
  | unfinished => trivial
  | ended trace result =>
    cases result with
    | ok value => exact ⟨law.calm_append hearlier hrun.1, hrun.2⟩
    | error error => exact law.final_append hearlier hrun

theorem Obeys.bind {mid : α → Prop} {post : β → Prop} {first : Run (Note ρ) α}
    {next : α → Run (Note ρ) β} (hfirst : first.Obeys law mid)
    (hnext : ∀ value, mid value → (next value).Obeys law post) :
    (first >>= next).Obeys law post := by
  cases first with
  | unfinished => trivial
  | ended trace result =>
    cases result with
    | ok value => exact (hnext value hfirst.2).after hfirst.1
    | error error => exact hfirst

theorem report_obeys (event : Event (Note ρ)) (hcalm : event.Calm)
    (hentry : event.entered? = none) : (report event).Obeys law fun _ => True :=
  ⟨law.calm_event hcalm hentry, trivial⟩

end Run

namespace Parser

variable {law : TraceLaw rules}

-- At its places a parser obeys the law, and its tails are such places again
def Obeys (law : TraceLaw rules) (parser : Parser (Note ρ) α) : Prop :=
  ∀ input, law.place input → (parser input).Obeys law (Outcome.LeavesIn law.place)

-- The parsers that read bytes themselves

theorem obeys_reachedEnd : (do
    Run.report .reachedEnd
    pure .noMatch : Run (Note ρ) (Outcome α)).Obeys law (Outcome.LeavesIn law.place) :=
  (Run.report_obeys .reachedEnd rfl rfl).bind fun _ _ => .pure trivial

theorem literal_obeys (expected : Bytes) : (literal expected).Obeys law := by
  intro input hplace
  unfold literal
  split
  · exact .pure (law.place_suffix hplace (List.drop_suffix _ _))
  · split
    · exact obeys_reachedEnd
    · exact .pure trivial

theorem anyByte_obeys : anyByte.Obeys law := by
  intro input hplace
  cases input with
  | nil => exact obeys_reachedEnd
  | cons first tail => exact .pure (law.place_suffix hplace (List.suffix_cons _ _))

theorem byte_obeys (expected : UInt8) : (byte expected).Obeys law := by
  intro input hplace
  cases input with
  | nil => exact obeys_reachedEnd
  | cons first tail =>
    apply Run.Obeys.pure
    split
    · exact law.place_suffix hplace (List.suffix_cons _ _)
    · trivial

theorem satisfyRun_obeys {test : UInt8 → Run (Note ρ) Bool}
    (htest : ∀ byte, (test byte).Obeys law fun _ => True) : (satisfyRun test).Obeys law := by
  intro input hplace
  cases input with
  | nil => exact obeys_reachedEnd
  | cons first tail =>
    apply (htest first).bind
    intro passed _
    cases passed with
    | false => exact .pure trivial
    | true => exact .pure (law.place_suffix hplace (List.suffix_cons _ _))

theorem atEnd_obeys : atEnd.Obeys law := by
  intro input hplace
  cases input with
  | nil => exact (Run.report_obeys .reachedEnd rfl rfl).bind fun _ _ => .pure hplace
  | cons first tail => exact .pure trivial

-- Each combinator obeys the law if its parts do

theorem Obeys.succeed (value : α) : (succeed value).Obeys law := fun _ hplace => .pure hplace

theorem Obeys.andThen {first : Parser (Note ρ) α} {next : α → Parser (Note ρ) β}
    (hfirst : first.Obeys law) (hnext : ∀ value, (next value).Obeys law) :
    (first.andThen next).Obeys law := by
  intro input hplace
  apply (hfirst input hplace).bind
  intro outcome houtcome
  cases outcome with
  | matched value tail => exact hnext value tail houtcome
  | noMatch => exact .pure trivial

theorem Obeys.orElse {first second : Parser (Note ρ) α} (hfirst : first.Obeys law)
    (hsecond : second.Obeys law) : (first.orElse second).Obeys law := by
  intro input hplace
  apply (hfirst input hplace).bind
  intro outcome houtcome
  cases outcome with
  | matched value tail => exact .pure houtcome
  | noMatch => exact hsecond input hplace

theorem Obeys.refine {inner : Parser (Note ρ) α} (hinner : inner.Obeys law)
    {f : α → Run (Note ρ) β} (hf : ∀ value, (f value).Obeys law fun _ => True) :
    (inner.refine f).Obeys law := by
  intro input hplace
  apply (hinner input hplace).bind
  intro outcome houtcome
  cases outcome with
  | matched value tail => exact (hf value).bind fun _ _ => .pure houtcome
  | noMatch => exact .pure trivial

theorem Obeys.map {inner : Parser (Note ρ) α} (hinner : inner.Obeys law) (f : α → β) :
    (inner.map f).Obeys law := hinner.refine fun _ => .pure trivial

theorem Obeys.both {first : Parser (Note ρ) α} {second : Parser (Note ρ) β}
    (hfirst : first.Obeys law) (hsecond : second.Obeys law) : (first.both second).Obeys law :=
  hfirst.andThen fun _ => hsecond.map _

theorem Obeys.sequence {parsers : List (Parser (Note ρ) α)}
    (h : ∀ parser ∈ parsers, parser.Obeys law) : (sequence parsers).Obeys law := by
  induction parsers with
  | nil => exact .succeed _
  | cons first rest ih =>
    have hrest := ih fun parser hparser => h parser (List.mem_cons_of_mem _ hparser)
    exact (h first List.mem_cons_self).andThen fun _ => hrest.map _

theorem Obeys.choice {parsers : List (Parser (Note ρ) α)}
    (h : ∀ parser ∈ parsers, parser.Obeys law) : (choice parsers).Obeys law := by
  induction parsers with
  | nil => exact fun _ _ => .pure trivial
  | cons first rest ih =>
    have hrest := ih fun parser hparser => h parser (List.mem_cons_of_mem _ hparser)
    exact (h first List.mem_cons_self).orElse hrest

theorem Obeys.optional {inner : Parser (Note ρ) α} (hinner : inner.Obeys law) :
    inner.optional.Obeys law := by
  intro input hplace
  apply (hinner input hplace).bind
  intro outcome houtcome
  cases outcome with
  | matched value tail => exact .pure houtcome
  | noMatch => exact .pure hplace

theorem Obeys.notFollowedBy {inner : Parser (Note ρ) α} (hinner : inner.Obeys law) :
    inner.notFollowedBy.Obeys law := by
  intro input hplace
  apply (hinner input hplace).bind
  intro outcome _
  cases outcome with
  | matched value tail => exact .pure trivial
  | noMatch => exact .pure hplace

theorem Obeys.followedBy {inner : Parser (Note ρ) α} (hinner : inner.Obeys law) :
    inner.followedBy.Obeys law := by
  intro input hplace
  apply (hinner input hplace).bind
  intro outcome _
  cases outcome with
  | matched value tail => exact .pure hplace
  | noMatch => exact .pure trivial

theorem Obeys.between {opening : Parser (Note ρ) α} {inner : Parser (Note ρ) β}
    {closing : Parser (Note ρ) γ} (hopening : opening.Obeys law) (hinner : inner.Obeys law)
    (hclosing : closing.Obeys law) : (opening.between inner closing).Obeys law :=
  hopening.andThen fun _ => hinner.andThen fun _ => hclosing.map _

theorem Obeys.delay {inner : Parser (Note ρ) α} (hinner : inner.Obeys law) :
    inner.delay.Obeys law := fun input hplace =>
  (Run.report_obeys (.building input) rfl rfl).bind fun _ _ => hinner input hplace

-- The loop goes from tail to tail, so all its rounds are at places
theorem Obeys.foldRounds {inner : Parser (Note ρ) α} (hinner : inner.Obeys law)
    {combine : β → α → Run (Note ρ) β}
    (hcombine : ∀ accumulator value, (combine accumulator value).Obeys law fun _ => True)
    (rounds iterations : Nat) (accumulator : β) {input : Bytes} (hplace : law.place input) :
    (Parser.foldRounds inner combine rounds iterations [] accumulator input).Obeys law
      fun last => law.place last.2 := by
  induction rounds generalizing iterations accumulator input with
  | zero => trivial
  | succ rounds ih =>
    rw [foldRounds_succ]
    apply (hinner input hplace).bind
    intro outcome houtcome
    cases outcome with
    | noMatch =>
      exact (Run.report_obeys (.foldStopped iterations input) rfl rfl).bind fun _ _ => .pure hplace
    | matched value tail => exact (hcombine accumulator value).bind fun _ _ => ih _ _ houtcome

theorem Obeys.foldMany {inner : Parser (Note ρ) α} (hinner : inner.Obeys law)
    {init : Run (Note ρ) β} {combine : β → α → Run (Note ρ) β}
    (hinit : init.Obeys law fun _ => True)
    (hcombine : ∀ accumulator value, (combine accumulator value).Obeys law fun _ => True)
    (rounds : Nat) : (Parser.foldMany rounds inner init combine).Obeys law := by
  intro input hplace
  apply hinit.bind
  intro seed _
  exact (hinner.foldRounds hcombine rounds 0 seed hplace).bind fun _ hlast => .pure hlast

theorem Obeys.foldMany1 {inner : Parser (Note ρ) α} (hinner : inner.Obeys law)
    {init : Run (Note ρ) β} {combine : β → α → Run (Note ρ) β}
    (hinit : init.Obeys law fun _ => True)
    (hcombine : ∀ accumulator value, (combine accumulator value).Obeys law fun _ => True)
    (rounds : Nat) : (Parser.foldMany1 rounds inner init combine).Obeys law := by
  intro input hplace
  apply hinit.bind
  intro seed _
  apply (hinner input hplace).bind
  intro outcome houtcome
  cases outcome with
  | noMatch =>
    exact (Run.report_obeys (.foldRejected input) rfl rfl).bind fun _ _ => .pure trivial
  | matched value tail =>
    apply (hcombine seed value).bind
    intro start _
    exact (hinner.foldRounds hcombine rounds 0 start houtcome).bind fun _ hlast => .pure hlast

end Parser

end ByteGrammar

import ByteGrammar.Grammar.Basic
import ByteGrammar.Value.Action

namespace ByteGrammar

-- The elements of a sequence under construction, which is kept as a list
def Value.elements : Value → List Value
  | list items => items
  | _ => []

namespace Storage

-- An empty sequence, as the seed of a fold
def seed : Storage Value → Except Error Value
  | custom (.error error) _ => .error (.storage error)
  | _ => .ok (.list [])

-- A push, as the step of a fold
def step : Storage Value → Value → Value → Except Error Value
  | bounded limit, sequence, value =>
    if sequence.elements.length < limit then .ok (.list (sequence.elements ++ [value]))
    else .error (.storage (.limitExceeded limit))
  | fullArena, _, _ => .error (.storage .arena)
  | custom _ room, sequence, value =>
    match room sequence.elements.toArray value with
    | .ok _ => .ok (.list (sequence.elements ++ [value]))
    | .error error => .error (.storage error)
  | _, sequence, value => .ok (.list (sequence.elements ++ [value]))

end Storage

namespace Grammar

variable {ρ : Type}

-- A function that does not fail, as one that might
def applied (label : String) (f : Value → Value) (body : Grammar ρ) : Grammar ρ :=
  refine label (fun value => .ok (f value)) body

mutual

-- The same grammar in terms of few combinators. What only hands on is left out.
def core : Grammar ρ → Grammar ρ
  | literal expected => literal expected
  | anyByte => satisfy fun _ => true
  | byte expected => satisfy fun first => first = expected
  | satisfy test => satisfy test
  | atEnd => notFollowedBy (satisfy fun _ => true)
  | sequence parts => sequence (coreAll parts)
  | both first second => sequence [first.core, second.core]
  | choice arms => choice (coreAll arms)
  | orElse first second => choice [first.core, second.core]
  | map label f body => applied label f body.core
  | refine label f body => refine label f body.core
  | optional body =>
    choice [applied "some" .some body.core, applied "none" (fun _ => .none) empty]
  | notFollowedBy body => notFollowedBy body.core
  | followedBy body => notFollowedBy (notFollowedBy body.core)
  | between opening body closing =>
    applied "second" (Value.item 1) (sequence [opening.core, body.core, closing.core])
  | foldMany init combine body => foldMany init combine body.core
  | foldMany1 init combine body => foldMany1 init combine body.core
  | many storage body => applied "finish" id (foldMany storage.seed storage.step body.core)
  | many1 storage body => applied "finish" id (foldMany1 storage.seed storage.step body.core)
  | delay body => delay body.core
  | rule name => rule name
  | group body => body.core
  | probe label body => probe label body.core
  | primitive given => primitive given

def coreAll : List (Grammar ρ) → List (Grammar ρ)
  | [] => []
  | part :: rest => part.core :: coreAll rest

end

-- The grammars without derived combinators
inductive Core : Grammar ρ → Prop
  | literal (expected : Bytes) : Core (literal expected)
  | satisfy (test : UInt8 → Bool) : Core (satisfy test)
  | sequence (parts : List (Grammar ρ)) (hparts : ∀ part ∈ parts, Core part) : Core (sequence parts)
  | choice (arms : List (Grammar ρ)) (harms : ∀ arm ∈ arms, Core arm) : Core (choice arms)
  | refine (label : String) (f : Value → Except Error Value) (body : Grammar ρ)
      (hbody : Core body) : Core (refine label f body)
  | notFollowedBy (body : Grammar ρ) (hbody : Core body) : Core (notFollowedBy body)
  | foldMany (init : Except Error Value) (combine : Value → Value → Except Error Value)
      (body : Grammar ρ) (hbody : Core body) : Core (foldMany init combine body)
  | foldMany1 (init : Except Error Value) (combine : Value → Value → Except Error Value)
      (body : Grammar ρ) (hbody : Core body) : Core (foldMany1 init combine body)
  | delay (body : Grammar ρ) (hbody : Core body) : Core (delay body)
  | rule (name : ρ) : Core (rule name)
  | probe (label : String) (body : Grammar ρ) (hbody : Core body) : Core (probe label body)
  | primitive (given : Primitive) : Core (primitive given)

theorem coreAll_eq_map (parts : List (Grammar ρ)) : coreAll parts = parts.map core := by
  induction parts with
  | nil => rfl
  | cons part rest ih => rw [coreAll, ih, List.map_cons]

end Grammar

end ByteGrammar

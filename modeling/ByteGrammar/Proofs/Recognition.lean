import ByteGrammar.Grammar.Depth
import ByteGrammar.Proofs.Mirror.Grammar
import ByteGrammar.Proofs.Trace.Failure
import ByteGrammar.Value.Action

namespace ByteGrammar

variable {ρ α : Type}

namespace Storage

end Storage

namespace Grammar

-- The same grammar, with the same storages, but for its functions. Any two values correspond, so
-- functions correspond if neither ever fails, or if both do nothing but fail with the same error.
inductive SameButActions : Grammar ρ → Grammar ρ → Prop
  | of_alike (grammar other : Grammar ρ)
      (halike : Alike SameButActions Eq (fun _ _ => True) grammar other) :
      SameButActions grammar other

theorem SameButActions.alike {grammar other : Grammar ρ} (h : SameButActions grammar other) :
    Alike SameButActions Eq (fun _ _ => True) grammar other := by
  obtain ⟨_, _, halike⟩ := h
  exact halike

end Grammar

namespace Grammar

variable {rules others : ρ → Grammar ρ} {related : Grammar ρ → Grammar ρ → Prop}

end Grammar

end ByteGrammar

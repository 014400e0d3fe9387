import ByteGrammar.Grammar.Depth
import ByteGrammar.Proofs.Grammar.Reach
import ByteGrammar.Proofs.Parser.Takes
import ByteGrammar.Proofs.Suffix

namespace ByteGrammar.Grammar

variable {ρ : Type} {rules : ρ → Grammar ρ} {takers : ρ → Bool}

mutual

-- Whether each match takes a byte, as far as the shape of the grammar tells. Of the rules, the
-- `takers` are relied on to do so.
def consuming (takers : ρ → Bool) : Grammar ρ → Bool
  | literal expected => !expected.isEmpty
  | anyByte => true
  | byte _ => true
  | satisfy _ => true
  | atEnd => false
  | sequence parts => consumingAny takers parts
  | both first second => first.consuming takers || second.consuming takers
  | choice arms => consumingAll takers arms
  | orElse first second => first.consuming takers && second.consuming takers
  | map _ _ body => body.consuming takers
  | refine _ _ body => body.consuming takers
  | optional _ => false
  | notFollowedBy _ => false
  | followedBy _ => false
  | between opening body closing =>
    opening.consuming takers || body.consuming takers || closing.consuming takers
  | foldMany _ _ _ => false
  | foldMany1 _ _ body => body.consuming takers
  | many _ _ => false
  | many1 _ body => body.consuming takers
  | delay body => body.consuming takers
  | rule name => takers name
  | group body => body.consuming takers
  | probe _ body => body.consuming takers
  | primitive _ => false

def consumingAny (takers : ρ → Bool) : List (Grammar ρ) → Bool
  | [] => false
  | part :: rest => part.consuming takers || consumingAny takers rest

def consumingAll (takers : ρ → Bool) : List (Grammar ρ) → Bool
  | [] => true
  | arm :: rest => arm.consuming takers && consumingAll takers rest

end

mutual

-- The rules that may be entered before a byte has been taken for sure. A sequence exposes its
-- parts up to the first that is consuming.
def exposed (takers : ρ → Bool) : Grammar ρ → List ρ
  | literal _ => []
  | anyByte => []
  | byte _ => []
  | satisfy _ => []
  | atEnd => []
  | sequence parts => exposedUpTo takers parts
  | both first second =>
    first.exposed takers ++ if first.consuming takers then [] else second.exposed takers
  | choice arms => exposedAll takers arms
  | orElse first second => first.exposed takers ++ second.exposed takers
  | map _ _ body => body.exposed takers
  | refine _ _ body => body.exposed takers
  | optional body => body.exposed takers
  | notFollowedBy body => body.exposed takers
  | followedBy body => body.exposed takers
  | between opening body closing =>
    opening.exposed takers ++ if opening.consuming takers then [] else
      body.exposed takers ++ if body.consuming takers then [] else closing.exposed takers
  | foldMany _ _ body => body.exposed takers
  | foldMany1 _ _ body => body.exposed takers
  | many _ body => body.exposed takers
  | many1 _ body => body.exposed takers
  | delay body => body.exposed takers
  | rule name => [name]
  | group body => body.exposed takers
  | probe _ body => body.exposed takers
  | primitive _ => []

def exposedUpTo (takers : ρ → Bool) : List (Grammar ρ) → List ρ
  | [] => []
  | part :: rest =>
    part.exposed takers ++ if part.consuming takers then [] else exposedUpTo takers rest

def exposedAll (takers : ρ → Bool) : List (Grammar ρ) → List ρ
  | [] => []
  | arm :: rest => arm.exposed takers ++ exposedAll takers rest

end

-- What a repetition repeats
def element? : Grammar ρ → Option (Grammar ρ)
  | foldMany _ _ body => some body
  | foldMany1 _ _ body => some body
  | many _ body => some body
  | many1 _ body => some body
  | _ => none

theorem consuming_of_mem_all {arms : List (Grammar ρ)} (h : consumingAll takers arms = true)
    {arm : Grammar ρ} (harm : arm ∈ arms) : arm.consuming takers = true := by
  induction arms with
  | nil => cases harm
  | cons first rest ih =>
    rw [consumingAll, Bool.and_eq_true] at h
    rcases List.mem_cons.mp harm with rfl | harm
    · exact h.1
    · exact ih h.2 harm

theorem exposed_subset_all {arms : List (Grammar ρ)} {arm : Grammar ρ} (harm : arm ∈ arms) :
    arm.exposed takers ⊆ exposedAll takers arms := by
  induction arms with
  | nil => cases harm
  | cons first rest ih =>
    intro name hname
    rw [exposedAll]
    rcases List.mem_cons.mp harm with rfl | harm
    · exact List.mem_append_left _ hname
    · exact List.mem_append_right _ (ih harm hname)

-- A consuming grammar takes a byte in each match, and no grammar gives any back

theorem toNat_or_le (left right : Bool) : (left || right).toNat ≤ left.toNat + right.toNat := by
  cases left <;> cases right <;> decide

theorem consumingAny_toNat_le (parts : List (Grammar ρ)) :
    (consumingAny takers parts).toNat ≤
      (parts.map fun part => (part.consuming takers).toNat).sum := by
  induction parts with
  | nil => exact Nat.le_refl _
  | cons part rest ih =>
    have hor := toNat_or_le (part.consuming takers) (consumingAny takers rest)
    rw [consumingAny, List.map_cons, List.sum_cons]
    omega

theorem consulting_takes {given : Primitive} (h : given.LeavesSuffix) :
    (consulting given : Parser (Note ρ) Value).Takes 0 := by
  rintro input value tail ⟨trace, hmatch⟩
  obtain ⟨_, _, _, -, hrest, -⟩ := Run.bind_eq_ok hmatch
  exact (h input value tail (Primitive.parse_eq_ok hrest)).length_le

theorem layer_takes {rounds : Nat} {part : Grammar ρ → Parser (Note ρ) Value} (grammar : Grammar ρ)
    (htakers : ∀ name, takers name = true → (rules name).consuming takers = true)
    (hparts : ∀ inner ∈ grammar.parts rules, (part inner).Takes (inner.consuming takers).toNat)
    (hprimitive : ∀ given, grammar = .primitive given → given.LeavesSuffix) :
    (layer rules rounds part grammar).Takes (grammar.consuming takers).toNat := by
  -- what gives no bytes back is enough of a part for a grammar that is not consuming
  have hnone : ∀ inner ∈ grammar.parts rules, (part inner).Takes 0 :=
    fun inner hinner => (hparts inner hinner).mono (Nat.zero_le _)
  cases grammar with
  | literal expected =>
    apply ((Parser.literal_takes expected).map _).mono
    cases expected with
    | nil => exact Nat.le_refl _
    | cons first rest => simp [consuming]
  | anyByte => exact Parser.anyByte_takes.map _
  | byte expected => exact (Parser.byte_takes expected).map _
  | satisfy test => exact (Parser.satisfyRun_takes (testing test)).map _
  | atEnd => exact Parser.atEnd_takes.map _
  | sequence parts =>
    exact ((Parser.Takes.sequence parts hparts).map _).mono (consumingAny_toNat_le parts)
  | both first second =>
    have hboth := (hparts first (by simp [parts])).both (hparts second (by simp [parts]))
    exact (hboth.map _).mono (toNat_or_le _ _)
  | choice arms =>
    refine Parser.Takes.choice (List.forall_mem_map.mpr fun arm harm => ?_)
    cases hall : consumingAll takers arms with
    | false => exact (hparts arm harm).mono (by simp [consuming, hall])
    | true =>
      have htakes := hparts arm harm
      rw [consuming_of_mem_all hall harm] at htakes
      simpa [consuming, hall] using htakes
  | orElse first second =>
    have hfirst := hparts first (by simp [parts])
    have hsecond := hparts second (by simp [parts])
    rw [consuming]
    cases hleft : first.consuming takers <;> cases hright : second.consuming takers <;>
      rw [hleft] at hfirst <;> rw [hright] at hsecond <;>
      exact (hfirst.mono (by decide)).orElse (hsecond.mono (by decide))
  | map label f body => exact (hparts body (by simp [parts])).refine _
  | refine label f body => exact (hparts body (by simp [parts])).refine _
  | optional body => exact (hnone body (by simp [parts])).optional.map _
  | notFollowedBy body => exact (Parser.notFollowedBy_takes (part body)).map _
  | followedBy body => exact (Parser.followedBy_takes (part body)).map _
  | between opening body closing =>
    have hbetween := (hparts opening (by simp [parts])).between (hparts body (by simp [parts]))
      (hparts closing (by simp [parts]))
    apply hbetween.mono
    have hleft := toNat_or_le (opening.consuming takers) (body.consuming takers)
    have hright :=
      toNat_or_le (opening.consuming takers || body.consuming takers) (closing.consuming takers)
    rw [consuming]
    omega
  | foldMany init combine body => exact (hnone body (by simp [parts])).foldMany _ _ _
  | foldMany1 init combine body => exact (hparts body (by simp [parts])).foldMany1 _ _ _
  | many storage body => exact ((hnone body (by simp [parts])).many _ _).map _
  | many1 storage body => exact ((hparts body (by simp [parts])).many1 _ _).map _
  | delay body => exact (hparts body (by simp [parts])).delay
  | rule name =>
    apply ((hparts (rules name) (by simp [parts])).delay).mono
    cases htaker : takers name with
    | false => simp [consuming, htaker]
    | true => simp [consuming, htaker, htakers name htaker]
  | group body => exact hparts body (by simp [parts])
  | probe label body => exact hparts body (by simp [parts])
  | primitive given => exact consulting_takes (hprimitive given rfl)

theorem parser_takes (depth : Nat) (grammar : Grammar ρ)
    (htakers : ∀ name, takers name = true → (rules name).consuming takers = true)
    (hprimitives : ∀ given, Reaches rules grammar (.primitive given) → given.LeavesSuffix) :
    (parser rules depth grammar).Takes (grammar.consuming takers).toNat := by
  induction depth generalizing grammar with
  | zero => exact fun _ _ _ hmatch => absurd hmatch (Run.not_gives_unfinished _)
  | succ depth ih =>
    have hlayer : (layer rules depth (parser rules depth) grammar).Takes
        (grammar.consuming takers).toNat := by
      apply layer_takes grammar htakers
      · intro inner hinner
        exact ih inner fun given hgiven => hprimitives given (.of_part hinner hgiven)
      · rintro given rfl
        exact hprimitives given (.refl _)
    intro input value tail hmatch
    rw [parser_succ, Run.after_gives_iff] at hmatch
    exact hlayer input value tail hmatch

end ByteGrammar.Grammar

import Downset.Proofs.Arena.Consistent

/-!
# Where values flow

Along the links of a consistent arena values flow upwards in the order and never in a circle.
From the node of a safe key they flow to every accepted key above it, whether or not bridged
links were dropped.
-/

namespace Downset.Arena

variable {K V : Type} [DecidableEq K] {order : KeyOrder K} {filter : KeyFilter K}
  {dropped : K → K → Prop} {path : List K} {arena : Arena K V} {key other : K} {n m : NodeId}

namespace Consistent

theorem not_onCycle (h : Consistent order filter dropped path arena) :
    ¬ OnCycle arena.uppers n := by
  obtain ⟨rank, hrank⟩ := h.ranked
  exact not_onCycle_of_rank hrank

theorem wellFounded_below (h : Consistent order filter dropped path arena) :
    WellFounded fun lower upper => lower ∈ (arena.node upper).below := by
  obtain ⟨rank, hrank⟩ := h.ranked
  refine Subrelation.wf ?_ (InvImage.wf rank Nat.lt_wfRel.wf)
  intro lower upper hbelow
  exact hrank lower upper (h.mirror.2 hbelow)

/-- Values flow upwards in the order. -/
theorem reaches_of_flow (h : Consistent order filter dropped path arena)
    (hflow : Reaches arena.uppers n m) (hkey : (arena.node n).key? = some key)
    (hother : (arena.node m).key? = some other) : Reaches order.successors key other := by
  induction hflow using Relation.ReflTransGen.head_induction_on generalizing key with
  | refl =>
    rw [hkey, Option.some.injEq] at hother
    exact hother ▸ .refl
  | head step _ ih =>
    obtain ⟨middle, hmiddle, _⟩ := h.exists_key_above step
    exact (h.nearest step hkey hmiddle).above.to_reflTransGen.trans (ih hmiddle)

/-- From the node of a safe key values flow to each nearest key: through the link, or through
a key in between if the link was dropped. -/
theorem exists_flow_of_nearest (h : Consistent order filter dropped [] arena)
    (hdropped : ∀ key other, dropped key other → order.Bridged filter key other)
    (hsafe : order.Safe key) (hslot : arena.slots.find? key = some n)
    (hnearest : order.Nearest filter key other) :
    ∃ m, arena.slots.find? other = some m ∧ Reaches arena.uppers n m := by
  -- by induction on how much of the order lies between the two keys
  induction hgap : order.extent [] key - order.extent [] other using Nat.strongRecOn
    generalizing key other n with
  | ind gap ih =>
    subst hgap
    obtain ⟨m, hm, ha | ⟨_, hdrop⟩⟩ := h.linked hsafe List.not_mem_nil hslot hnearest
    · exact ⟨m, hm, .single ha⟩
    · obtain ⟨middle, hlow, hhigh⟩ := hdropped key other hdrop
      have hmiddle := hsafe.of_reaches hlow.above.to_reflTransGen
      have hlt := hsafe.extent_lt hlow.above
      have hlt' := hmiddle.extent_lt hhigh.above
      obtain ⟨i, hi, hni⟩ := ih _ (by omega) hsafe hslot hlow rfl
      obtain ⟨j, hj, hij⟩ := ih _ (by omega) hmiddle hi hhigh rfl
      exact ⟨j, hj, hni.trans hij⟩

/-- From the node of a safe key values flow to every accepted key above it. -/
theorem exists_flow (h : Consistent order filter dropped [] arena)
    (hdropped : ∀ key other, dropped key other → order.Bridged filter key other)
    (hsafe : order.Safe key) (hslot : arena.slots.find? key = some n)
    (hreaches : Reaches order.successors key other) (hother : filter.accepts other = true) :
    ∃ m, arena.slots.find? other = some m ∧ Reaches arena.uppers n m := by
  have hchain := KeyOrder.nearest_chain_of_reaches hreaches hother
  clear hreaches
  induction hchain using Relation.ReflTransGen.head_induction_on generalizing n with
  | refl => exact ⟨n, hslot, .refl⟩
  | head hnearest _ ih =>
    obtain ⟨i, hi, hni⟩ := h.exists_flow_of_nearest hdropped hsafe hslot hnearest
    obtain ⟨m, hm, him⟩ := ih (hsafe.of_reaches hnearest.above.to_reflTransGen) hi
    exact ⟨m, hm, hni.trans him⟩

end Consistent

end Downset.Arena

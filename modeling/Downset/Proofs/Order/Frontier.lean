import Downset.KeyOrder
import Downset.Proofs.Order.Safety
import Mathlib.Logic.Relation

/-!
# The nearest keys that can be queried

What is linked in an index are not the steps of the order but its shortcuts past the keys
that cannot be queried. The frontier of a key holds the first accepted keys on the ways up
from it, the key itself included; the nearest keys are those met after at least one step.
Whatever accepted key lies above can be reached through nearest keys alone.
-/

namespace Downset.KeyOrder

variable {K : Type} [DecidableEq K] {order : KeyOrder K} {filter : KeyFilter K} {key other : K}

/-- The first accepted keys on the ways up from a key, which may be the key itself. -/
inductive Frontier (order : KeyOrder K) (filter : KeyFilter K) : K → K → Prop
  | here {key : K} (accepted : filter.accepts key = true) : Frontier order filter key key
  | past {key next other : K} (rejected : filter.accepts key = false)
      (step : next ∈ order.successors key) (rest : Frontier order filter next other) :
      Frontier order filter key other

/-- The first accepted keys that at least one step leads to. -/
def Nearest (order : KeyOrder K) (filter : KeyFilter K) (key other : K) : Prop :=
  ∃ next ∈ order.successors key, order.Frontier filter next other

/-- A nearest key that is also reached through another nearest key. -/
def Bridged (order : KeyOrder K) (filter : KeyFilter K) (key other : K) : Prop :=
  ∃ middle, order.Nearest filter key middle ∧ order.Nearest filter middle other

theorem Frontier.accepted (h : order.Frontier filter key other) : filter.accepts other = true := by
  induction h with
  | here accepted => exact accepted
  | past _ _ _ ih => exact ih

theorem Frontier.reaches (h : order.Frontier filter key other) :
    Reaches order.successors key other := by
  induction h with
  | here => exact .refl
  | past _ step _ ih => exact .head step ih

theorem Frontier.eq_of_accepts (h : order.Frontier filter key other)
    (hkey : filter.accepts key = true) : other = key := by
  cases h with
  | here => rfl
  | past rejected => simp [hkey] at rejected

theorem frontier_iff_nearest (hkey : filter.accepts key = false) :
    order.Frontier filter key other ↔ order.Nearest filter key other := by
  constructor
  · intro h
    cases h with
    | here accepted => simp [hkey] at accepted
    | past _ step rest => exact ⟨_, step, rest⟩
  · rintro ⟨next, hnext, h⟩
    exact .past hkey hnext h

theorem Nearest.accepted (h : order.Nearest filter key other) : filter.accepts other = true := by
  obtain ⟨next, _, h⟩ := h
  exact h.accepted

theorem Nearest.above (h : order.Nearest filter key other) :
    Above order.successors key other := by
  obtain ⟨next, hnext, h⟩ := h
  exact .head' hnext h.reaches

theorem nearest_iff_mem (h : ∀ next ∈ order.successors key, filter.accepts next = true) :
    order.Nearest filter key other ↔ other ∈ order.successors key := by
  constructor
  · rintro ⟨next, hnext, hfrontier⟩
    exact hfrontier.eq_of_accepts (h next hnext) ▸ hnext
  · intro hother
    exact ⟨other, hother, .here (h other hother)⟩

/-- A way up to an accepted key is a way through nearest keys from some key of the frontier. -/
theorem exists_frontier_of_reaches (h : Reaches order.successors key other)
    (hother : filter.accepts other = true) :
    ∃ first, order.Frontier filter key first ∧
      Relation.ReflTransGen (order.Nearest filter) first other := by
  induction h using Relation.ReflTransGen.head_induction_on with
  | refl => exact ⟨other, .here hother, .refl⟩
  | @head key next step _ ih =>
    obtain ⟨first, hfirst, hrest⟩ := ih
    cases hkey : filter.accepts key with
    | true => exact ⟨key, .here hkey, .head ⟨next, step, hfirst⟩ hrest⟩
    | false => exact ⟨first, .past hkey step hfirst, hrest⟩

/-- A way up to an accepted key can be shortened to one through nearest keys alone. -/
theorem nearest_chain_of_reaches (h : Reaches order.successors key other)
    (hother : filter.accepts other = true) :
    Relation.ReflTransGen (order.Nearest filter) key other := by
  rcases h.cases_head with rfl | ⟨next, step, rest⟩
  · exact .refl
  · obtain ⟨first, hfirst, hrest⟩ := exists_frontier_of_reaches rest hother
    exact .head ⟨next, step, hfirst⟩ hrest

end Downset.KeyOrder

import Downset.KeyOrder
import Mathlib.Logic.Relation

/-!
# Keys that reach no cycle

A key is safe when no key at or above it lies on a cycle of the order. A key is safe as
soon as all its successors are, and above a safe key the extent falls with every step, so
that arguments may go by induction on it.
-/

namespace Downset

open Relation

variable {α : Type} {next : α → List α} {a b c : α}

/-- Zero or more steps lead from the first point to the second. -/
abbrev Reaches (next : α → List α) : α → α → Prop := ReflTransGen fun a b => b ∈ next a

/-- A way of at least one step leads from the point back to itself. -/
def OnCycle (next : α → List α) (a : α) : Prop := Above next a a

/-- A set of points that is closed under steps holds every point reached from within. -/
theorem Reaches.mem_of_closed {P : α → Prop} (hP : ∀ x, P x → ∀ y ∈ next x, P y)
    (hab : Reaches next a b) (ha : P a) : P b := by
  induction hab with
  | refl => exact ha
  | tail _ step ih => exact hP _ ih _ step

theorem rank_lt_of_above {rank : α → Nat} (hrank : ∀ a, ∀ b ∈ next a, rank a < rank b)
    (hab : Above next a b) : rank a < rank b := by
  induction hab with
  | single step => exact hrank a _ step
  | tail _ step ih => exact Nat.lt_trans ih (hrank _ _ step)

theorem not_onCycle_of_rank {rank : α → Nat} (hrank : ∀ a, ∀ b ∈ next a, rank a < rank b) :
    ¬ OnCycle next a :=
  fun hcycle => Nat.lt_irrefl _ (rank_lt_of_above hrank hcycle)

theorem above_cons {path : List α} (hpath : ∀ p ∈ path, Above next p a) (step : b ∈ next a) :
    ∀ p ∈ a :: path, Above next p b := by
  intro p hp
  rcases List.mem_cons.1 hp with rfl | hp
  · exact .single step
  · exact (hpath p hp).tail step

namespace KeyOrder

variable {K : Type} {order : KeyOrder K} {key other : K}

/-- No key at or above this one lies on a cycle. -/
def Safe (order : KeyOrder K) (key : K) : Prop :=
  ∀ other, Reaches order.successors key other → ¬ OnCycle order.successors other

theorem Safe.of_reaches (h : order.Safe key) (hr : Reaches order.successors key other) :
    order.Safe other :=
  fun _ ho => h _ (hr.trans ho)

theorem Safe.of_mem (h : order.Safe key) (hmem : other ∈ order.successors key) :
    order.Safe other :=
  h.of_reaches (.single hmem)

theorem not_safe_of_onCycle (hr : Reaches order.successors key other)
    (hc : OnCycle order.successors other) : ¬ order.Safe key :=
  fun h => h other hr hc

theorem safe_of_successors (h : ∀ next ∈ order.successors key, order.Safe next) :
    order.Safe key := by
  intro other hr hc
  rcases hr.cases_head with rfl | ⟨next, step, rest⟩
  · obtain ⟨next, step, hback⟩ := TransGen.head'_iff.1 hc
    exact h next step key hback hc
  · exact h next step other rest hc

variable [DecidableEq K]

theorem safe_ofTable {rows : List (K × List K)} (rank : K → Nat)
    (hrows : ∀ row ∈ rows, ∀ next ∈ row.2, rank row.1 < rank next) (key : K) :
    (ofTable rows).Safe key := by
  intro other _
  have hrank : ∀ lower, ∀ upper ∈ rowSuccessors rows lower, rank lower < rank upper := by
    intro lower upper hupper
    obtain ⟨row, hrow, hnext⟩ := List.mem_flatMap.1 hupper
    obtain ⟨hmem, heq⟩ := List.mem_filter.1 hrow
    rw [decide_eq_true_eq] at heq
    exact heq ▸ hrows row hmem upper hnext
  exact not_onCycle_of_rank hrank

theorem Safe.extent_lt (h : order.Safe key) (ha : Above order.successors key other) :
    order.extent [] other < order.extent [] key := by
  obtain ⟨above, hlen, hcov⟩ := order.exists_covers_extent [] key
  have hmem : key ∈ above := hcov key (.inl rfl) List.not_mem_nil
  have hle : order.extent [] other ≤ (above.erase key).length := by
    refine extent_le fun third hthird _ => ?_
    have habove : Above order.successors key third := by
      rcases hthird with rfl | hthird
      · exact ha
      · exact ha.trans hthird
    have hne : third ≠ key := by
      rintro rfl
      exact h third .refl habove
    exact (List.mem_erase_of_ne hne).2 (hcov third (.inr habove) List.not_mem_nil)
  have hpos := List.length_pos_of_mem hmem
  rw [List.length_erase_of_mem hmem] at hle
  omega

/-- Two ways lead from the lowest key to the highest. -/
def diamond : KeyOrder Int := .ofTable [(1, [2, 3]), (2, [4]), (3, [4])]

theorem safe_diamond (key : Int) : diamond.Safe key :=
  safe_ofTable Int.toNat (by decide) key

/-- Two keys lead to each other, and a key beside them does not lead to either. -/
def knot : KeyOrder Int := .ofTable [(1, [4, 2]), (2, [1]), (3, [4])]

theorem safe_knot : knot.Safe 3 := by
  have hfour : knot.Safe 4 := by
    refine safe_of_successors fun next hnext => ?_
    rw [show knot.successors 4 = [] by decide] at hnext
    exact absurd hnext List.not_mem_nil
  refine safe_of_successors fun next hnext => ?_
  rw [show knot.successors 3 = [4] by decide] at hnext
  exact List.mem_singleton.1 hnext ▸ hfour

theorem onCycle_knot : OnCycle knot.successors 1 := .head (b := 2) (by decide) (.single (by decide))

end KeyOrder

end Downset

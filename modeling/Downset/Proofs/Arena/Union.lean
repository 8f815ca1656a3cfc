import Downset.OrderedSet

/-!
# Unions up to what is known

A union of sets in order of arrival lists each element at its first place. Two sets are the same
beyond some known elements if they list all others alike. What is left out of a part of a union
makes no difference to the whole, if it is among what comes before that part.
-/

namespace Downset

namespace OrderedSet

variable {V : Type} [DecidableEq V] {s s' t t' : OrderedSet V} {known : List V} {a : V}

/-- The elements of a set, then those of others, one set after another. -/
def unionAll (s : OrderedSet V) (others : List (OrderedSet V)) : OrderedSet V :=
  others.foldl (· ∪ ·) s

@[simp] theorem unionAll_nil : s.unionAll [] = s := rfl

@[simp] theorem unionAll_cons {others : List (OrderedSet V)} :
    s.unionAll (t :: others) = (s ∪ t).unionAll others := rfl

theorem mem_unionAll {others : List (OrderedSet V)} :
    a ∈ s.unionAll others ↔ a ∈ s ∨ ∃ t ∈ others, a ∈ t := by
  induction others generalizing s with
  | nil => simp
  | cons t others ih => simp [ih, or_assoc]

theorem empty_union : ∅ ∪ s = s := by
  ext1
  simp

theorem ofList_toList : ofList s.toList = s := by
  rw [ofList, ← union_eq_insertMany, empty_union]

/-- Uniting sets one after another lists each element at its first place. -/
theorem unionAll_eq_ofList {others : List (OrderedSet V)} :
    s.unionAll others = ofList (s.toList ++ others.flatMap toList) := by
  have hunite : ∀ s : OrderedSet V, s.unionAll others = s.insertMany (others.flatMap toList) := by
    induction others with
    | nil => simp
    | cons t others ih =>
      intro s
      rw [unionAll_cons, ih, union_eq_insertMany, List.flatMap_cons, insertMany_append]
  rw [hunite, ofList, insertMany_append]
  exact congrArg (insertMany · _) ofList_toList.symm

/-- The sets list the same elements in the same order, apart from those that are known. -/
def SameBeyond (known : List V) (s t : OrderedSet V) : Prop :=
  (s.toList.filter fun a => decide (a ∉ known)) = t.toList.filter fun a => decide (a ∉ known)

namespace SameBeyond

theorem refl (known : List V) (s : OrderedSet V) : SameBeyond known s s := rfl

theorem symm (h : SameBeyond known s t) : SameBeyond known t s := Eq.symm h

theorem trans (h : SameBeyond known s t) (h' : SameBeyond known t t') : SameBeyond known s t' :=
  Eq.trans h h'

theorem mem_iff (h : SameBeyond known s t) (ha : a ∉ known) : a ∈ s ↔ a ∈ t := by
  have hmem : ∀ s : OrderedSet V, a ∈ s ↔ a ∈ s.toList.filter fun a => decide (a ∉ known) := by
    simp [mem_def, ha]
  rw [hmem, hmem, h]

theorem eq (h : SameBeyond [] s t) : s = t := by
  have hall : ∀ s : OrderedSet V, (s.toList.filter fun a => decide (a ∉ ([] : List V))) = s.toList := by
    simp
  unfold SameBeyond at h
  rw [hall, hall] at h
  exact OrderedSet.ext h

theorem filter_union :
    ((s ∪ t).toList.filter fun a => decide (a ∉ known)) =
      (s.toList.filter fun a => decide (a ∉ known)) ++
        t.toList.filter fun a => decide (a ∉ known ++ s.toList) := by
  rw [toList_union, List.filter_append, List.filter_filter]
  simp [not_or]

theorem union_right (h : SameBeyond (known ++ s.toList) t t') :
    SameBeyond known (s ∪ t) (s ∪ t') := by
  unfold SameBeyond at h ⊢
  rw [filter_union, filter_union, h]

theorem union_left (h : SameBeyond known s s') : SameBeyond known (s ∪ t) (s' ∪ t) := by
  have hmem : ∀ a, a ∉ known ++ s.toList ↔ a ∉ known ++ s'.toList := by
    intro a
    have hiff : a ∉ known → (a ∈ s ↔ a ∈ s') := h.mem_iff
    simp only [mem_def] at hiff
    grind
  unfold SameBeyond at h ⊢
  rw [filter_union, filter_union, h]
  simp only [hmem]

theorem union_of_known (h : ∀ a ∈ t, a ∈ known ∨ a ∈ s) : SameBeyond known (s ∪ t) s := by
  have hnone : (t.toList.filter fun a => decide (a ∉ known ++ s.toList)) = [] := by
    rw [List.filter_eq_nil_iff]
    intro a ha
    have hor := h a ha
    simp only [mem_def] at hor
    simpa only [decide_eq_true_eq, Decidable.not_not, List.mem_append] using hor
  unfold SameBeyond
  rw [filter_union, hnone, List.append_nil]

theorem unionAll (h : SameBeyond known s s') (others : List (OrderedSet V)) :
    SameBeyond known (s.unionAll others) (s'.unionAll others) := by
  induction others generalizing s s' with
  | nil => exact h
  | cons t others ih => exact ih h.union_left

end SameBeyond

end OrderedSet

end Downset

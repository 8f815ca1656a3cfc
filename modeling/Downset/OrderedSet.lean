/-!
# Sets that remember arrival

A finite set whose elements are listed by first arrival. Inserting an element that is
already present changes nothing, so the listing never has repeats. The values put at a
key, the links of a node and the keys of a filter are all sets of this kind, because
every listing a reader sees is in order of arrival.
-/

namespace Downset

/-- A finite set together with the order in which its elements arrived. -/
@[ext]
structure OrderedSet (α : Type) where
  toList : List α
  nodup : toList.Nodup
  deriving DecidableEq

namespace OrderedSet

variable {α : Type}

instance : Membership α (OrderedSet α) := ⟨fun s a => a ∈ s.toList⟩

theorem mem_def {a : α} {s : OrderedSet α} : a ∈ s ↔ a ∈ s.toList := Iff.rfl

instance [DecidableEq α] (a : α) (s : OrderedSet α) : Decidable (a ∈ s) :=
  inferInstanceAs (Decidable (a ∈ s.toList))

def empty : OrderedSet α := ⟨[], List.nodup_nil⟩

instance : EmptyCollection (OrderedSet α) := ⟨empty⟩

instance : Inhabited (OrderedSet α) := ⟨∅⟩

@[simp] theorem toList_empty : (∅ : OrderedSet α).toList = [] := rfl

@[simp] theorem not_mem_empty (a : α) : a ∉ (∅ : OrderedSet α) := List.not_mem_nil

def singleton (a : α) : OrderedSet α := ⟨[a], by simp⟩

@[simp] theorem toList_singleton (a : α) : (singleton a).toList = [a] := rfl

@[simp] theorem mem_singleton {a b : α} : b ∈ singleton a ↔ b = a := by
  simp [mem_def]

def size (s : OrderedSet α) : Nat := s.toList.length

def isEmpty (s : OrderedSet α) : Bool := s.toList.isEmpty

theorem isEmpty_iff {s : OrderedSet α} : s.isEmpty = true ↔ s = ∅ := by
  rw [isEmpty, List.isEmpty_iff, OrderedSet.ext_iff, toList_empty]

variable [DecidableEq α]

/-- Adds an element behind the others, unless it is already there. -/
def insert (s : OrderedSet α) (a : α) : OrderedSet α :=
  if h : a ∈ s.toList then s
  else ⟨s.toList ++ [a], by
    refine List.nodup_append.2 ⟨s.nodup, by simp, fun x hx y hy hxy => ?_⟩
    exact h (by simp at hy; exact hy ▸ hxy ▸ hx)⟩

theorem insert_of_mem {s : OrderedSet α} {a : α} (h : a ∈ s) : s.insert a = s :=
  dif_pos h

theorem toList_insert_of_not_mem {s : OrderedSet α} {a : α} (h : a ∉ s) :
    (s.insert a).toList = s.toList ++ [a] :=
  congrArg toList (dif_neg h)

@[simp] theorem mem_insert {s : OrderedSet α} {a b : α} : b ∈ s.insert a ↔ b ∈ s ∨ b = a := by
  by_cases h : a ∈ s
  · rw [insert_of_mem h]
    exact ⟨Or.inl, fun hb => hb.elim id (fun e => e ▸ h)⟩
  · rw [mem_def, toList_insert_of_not_mem h]
    simp [mem_def]

def insertMany (s : OrderedSet α) (xs : List α) : OrderedSet α := xs.foldl insert s

@[simp] theorem insertMany_nil (s : OrderedSet α) : s.insertMany [] = s := rfl

@[simp] theorem insertMany_cons (s : OrderedSet α) (a : α) (xs : List α) :
    s.insertMany (a :: xs) = (s.insert a).insertMany xs := rfl

theorem insertMany_append (s : OrderedSet α) (xs ys : List α) :
    s.insertMany (xs ++ ys) = (s.insertMany xs).insertMany ys := List.foldl_append

@[simp] theorem mem_insertMany {s : OrderedSet α} {xs : List α} {b : α} :
    b ∈ s.insertMany xs ↔ b ∈ s ∨ b ∈ xs := by
  induction xs generalizing s with
  | nil => simp
  | cons a xs ih => simp [ih, or_assoc]

theorem insertMany_of_forall_mem {s : OrderedSet α} {xs : List α} (h : ∀ a ∈ xs, a ∈ s) :
    s.insertMany xs = s := by
  induction xs with
  | nil => rfl
  | cons a xs ih =>
    rw [insertMany_cons, insert_of_mem (h a List.mem_cons_self)]
    exact ih fun b hb => h b (List.mem_cons_of_mem a hb)

/-- The elements of a list, each at its first place. -/
def ofList (xs : List α) : OrderedSet α := (∅ : OrderedSet α).insertMany xs

theorem ofList_append (xs ys : List α) : ofList (xs ++ ys) = (ofList xs).insertMany ys :=
  insertMany_append _ xs ys

@[simp] theorem mem_ofList {xs : List α} {b : α} : b ∈ ofList xs ↔ b ∈ xs := by
  simp [ofList]

/-- The elements of the first set, then those that only the second one has. -/
def union (s t : OrderedSet α) : OrderedSet α :=
  ⟨s.toList ++ t.toList.filter fun a => decide (a ∉ s.toList), by
    refine List.nodup_append.2 ⟨s.nodup, t.nodup.sublist List.filter_sublist,
      fun x hx y hy hxy => ?_⟩
    exact of_decide_eq_true (List.mem_filter.1 hy).2 (hxy ▸ hx)⟩

instance : Union (OrderedSet α) := ⟨union⟩

@[simp] theorem toList_union (s t : OrderedSet α) :
    (s ∪ t).toList = s.toList ++ t.toList.filter fun a => decide (a ∉ s.toList) := rfl

@[simp] theorem mem_union {s t : OrderedSet α} {b : α} : b ∈ s ∪ t ↔ b ∈ s ∨ b ∈ t := by
  simp only [mem_def, toList_union, List.mem_append, List.mem_filter, decide_eq_true_eq]
  by_cases h : b ∈ s.toList <;> simp [h]

private theorem toList_insertMany_of_nodup {s : OrderedSet α} {xs : List α} (h : xs.Nodup) :
    (s.insertMany xs).toList = s.toList ++ xs.filter fun a => decide (a ∉ s.toList) := by
  induction xs generalizing s with
  | nil => simp
  | cons a xs ih =>
    obtain ⟨hna, hnd⟩ := List.nodup_cons.1 h
    rw [insertMany_cons, ih hnd]
    by_cases ha : a ∈ s
    · rw [insert_of_mem ha, List.filter_cons_of_neg (by simpa [mem_def] using ha)]
    · rw [toList_insert_of_not_mem ha, List.filter_cons_of_pos (by simpa [mem_def] using ha),
        List.append_assoc, List.singleton_append]
      congr 2
      refine List.filter_congr fun b hb => ?_
      have hba : b ≠ a := fun e => hna (e ▸ hb)
      simp [hba]

theorem union_eq_insertMany (s t : OrderedSet α) : s ∪ t = s.insertMany t.toList :=
  OrderedSet.ext (toList_insertMany_of_nodup t.nodup).symm

def erase (s : OrderedSet α) (a : α) : OrderedSet α := ⟨s.toList.erase a, s.nodup.erase a⟩

@[simp] theorem mem_erase {s : OrderedSet α} {a b : α} : b ∈ s.erase a ↔ b ≠ a ∧ b ∈ s :=
  s.nodup.mem_erase_iff

end OrderedSet

end Downset

/-!
# Tables in order of arrival

A finite partial map kept as its list of entries. A key keeps the place where it first
arrived: a later `insert` at the same key replaces the entry and leaves its place, and
`erase` closes the gap. Each operation is described by what `find?` answers afterwards.
-/

namespace Downset

/-- A finite partial map that lists its keys in order of arrival. -/
@[ext]
structure Table (κ β : Type) where
  entries : List (κ × β)
  nodup : (entries.map Prod.fst).Nodup

namespace Table

variable {κ β : Type}

def empty : Table κ β := ⟨[], List.nodup_nil⟩

instance : EmptyCollection (Table κ β) := ⟨empty⟩

instance : Inhabited (Table κ β) := ⟨∅⟩

def keys (t : Table κ β) : List κ := t.entries.map Prod.fst

def values (t : Table κ β) : List β := t.entries.map Prod.snd

def size (t : Table κ β) : Nat := t.entries.length

variable [DecidableEq κ]

def find? (t : Table κ β) (k : κ) : Option β :=
  (t.entries.find? fun e => decide (e.1 = k)).map Prod.snd

/-- The entries with the content at `k` replaced, in place. -/
private def replace (k : κ) (b : β) (es : List (κ × β)) : List (κ × β) :=
  es.map fun e => if e.1 = k then (k, b) else e

private theorem keys_replace (k : κ) (b : β) (es : List (κ × β)) :
    (replace k b es).map Prod.fst = es.map Prod.fst := by
  induction es with
  | nil => rfl
  | cons e es ih =>
    by_cases h : e.1 = k <;> simp_all [replace]

/-- Sets the content at a key: in place if the key has an entry, else behind the others. -/
def insert (t : Table κ β) (k : κ) (b : β) : Table κ β :=
  if h : k ∈ t.entries.map Prod.fst then
    ⟨replace k b t.entries, by rw [keys_replace]; exact t.nodup⟩
  else
    ⟨t.entries ++ [(k, b)], by
      rw [List.map_append]
      refine List.nodup_append.2 ⟨t.nodup, by simp, fun x hx y hy hxy => ?_⟩
      exact h (by simp at hy; exact hy ▸ hxy ▸ hx)⟩

def erase (t : Table κ β) (k : κ) : Table κ β :=
  ⟨t.entries.filter fun e => decide (e.1 ≠ k),
    t.nodup.sublist ((List.filter_sublist).map Prod.fst)⟩

@[simp] theorem find?_empty (k : κ) : (∅ : Table κ β).find? k = none := rfl

theorem find?_eq_none_iff {t : Table κ β} {k : κ} : t.find? k = none ↔ k ∉ t.keys := by
  simp only [find?, keys, Option.map_eq_none_iff, List.find?_eq_none, List.mem_map,
    decide_eq_true_eq, not_exists, not_and]

theorem find?_isSome_iff {t : Table κ β} {k : κ} : (t.find? k).isSome ↔ k ∈ t.keys := by
  rw [← Option.ne_none_iff_isSome, Ne, find?_eq_none_iff, Classical.not_not]

theorem mem_entries_iff {t : Table κ β} {k : κ} {b : β} :
    (k, b) ∈ t.entries ↔ t.find? k = some b := by
  obtain ⟨es, hnodup⟩ := t
  simp only [find?]
  induction es with
  | nil => simp
  | cons e es ih =>
    obtain ⟨hfirst, hrest⟩ := List.nodup_cons.1 hnodup
    by_cases h : e.1 = k
    · subst h
      have hout : (e.1, b) ∉ es := fun hmem => hfirst (List.mem_map.2 ⟨_, hmem, rfl⟩)
      simp [hout, Prod.ext_iff, eq_comm]
    · have hne : (k, b) ≠ e := fun heq => h (heq ▸ rfl)
      simpa [h, hne] using ih hrest

theorem mem_values_iff {t : Table κ β} {b : β} : b ∈ t.values ↔ ∃ k, t.find? k = some b := by
  simp only [values, List.mem_map, Prod.exists, exists_eq_right, mem_entries_iff]

theorem keys_insert_of_mem {t : Table κ β} {k : κ} (h : k ∈ t.keys) (b : β) :
    (t.insert k b).keys = t.keys :=
  (congrArg keys (dif_pos h)).trans (keys_replace k b t.entries)

theorem entries_insert_of_not_mem {t : Table κ β} {k : κ} (h : k ∉ t.keys) (b : β) :
    (t.insert k b).entries = t.entries ++ [(k, b)] :=
  congrArg entries (dif_neg h)

theorem keys_insert_of_not_mem {t : Table κ β} {k : κ} (h : k ∉ t.keys) (b : β) :
    (t.insert k b).keys = t.keys ++ [k] := by
  simp [keys, entries_insert_of_not_mem h]

private theorem find?_replace (k k' : κ) (b : β) (es : List (κ × β)) :
    ((replace k b es).find? fun e => decide (e.1 = k')).map Prod.snd =
      if k' = k then (if k ∈ es.map Prod.fst then some b else none)
      else (es.find? fun e => decide (e.1 = k')).map Prod.snd := by
  induction es with
  | nil => simp [replace]
  | cons e es ih =>
    simp only [replace] at ih
    grind [replace]

/-- An insertion is seen at its own key and nowhere else. -/
theorem find?_insert (t : Table κ β) (k k' : κ) (b : β) :
    (t.insert k b).find? k' = if k' = k then some b else t.find? k' := by
  by_cases h : k ∈ t.keys
  · have hin : t.insert k b = ⟨replace k b t.entries, _⟩ := dif_pos h
    simp only [hin, find?, find?_replace, show k ∈ t.entries.map Prod.fst from h, if_true]
  · rw [find?, entries_insert_of_not_mem h, find?]
    have hk := find?_eq_none_iff.2 h
    rw [find?, Option.map_eq_none_iff] at hk
    rw [List.find?_append]
    by_cases e : k' = k
    · subst e
      simp [hk]
    · rw [if_neg e]
      simp [Ne.symm e]

/-- An erased key has no entry, and the other keys keep theirs. -/
theorem find?_erase (t : Table κ β) (k k' : κ) :
    (t.erase k).find? k' = if k' = k then none else t.find? k' := by
  rw [find?, erase, find?, List.find?_filter]
  by_cases e : k' = k
  · subst e
    simp
  · rw [if_neg e]
    congr 2
    funext x
    grind

end Table

end Downset

import Downset.OrderedSet
import Downset.Text.Quoted

/-!
# Orders on keys

An order on keys is given by the keys directly above each key. It need not be an order
in the strict sense: a successor may be listed twice, listed although it is implied by
others, and the steps may run into a cycle. What is required is that only finitely many
keys lie above any one key, so that a walk which never repeats a key comes to an end: with
each key that it puts on its path, fewer keys are left that it can still meet. Only the
keys that a filter accepts can be queried. A filter is either a predicate on keys or a
finite set of keys known beforehand.
-/

namespace Downset

/-- One or more steps lead from the first point to the second. -/
abbrev Above {α : Type} (next : α → List α) : α → α → Prop :=
  Relation.TransGen fun a b => b ∈ next a

/-- A named relation of keys to the keys directly above them, finite above each key. -/
structure KeyOrder (K : Type) where
  name : String
  /-- The keys directly above a key, in the order in which a walk takes them. -/
  successors : K → List K
  /-- Some list holds all keys above any one key. -/
  finite_above : ∀ key, ∃ above : List K, ∀ other, Above successors key other → other ∈ above

namespace KeyOrder

variable {K : Type}

def ofFunction (successors : K → List K)
    (finite_above : ∀ key, ∃ above : List K, ∀ other, Above successors key other → other ∈ above) :
    KeyOrder K :=
  ⟨"closure order", successors, finite_above⟩

/-- The successors that a list of rows gives to a key: those of all its rows, in turn. -/
def rowSuccessors [DecidableEq K] (rows : List (K × List K)) (key : K) : List K :=
  (rows.filter fun row => decide (row.1 = key)).flatMap Prod.snd

theorem mem_of_above {successors : K → List K} {above : List K}
    (h : ∀ key, ∀ next ∈ successors key, next ∈ above) {key other : K}
    (habove : Above successors key other) : other ∈ above := by
  cases habove with
  | single step => exact h key other step
  | tail _ step => exact h _ other step

theorem mem_of_mem_rowSuccessors [DecidableEq K] {rows : List (K × List K)} {key next : K}
    (h : next ∈ rowSuccessors rows key) : next ∈ rows.flatMap Prod.snd := by
  obtain ⟨row, hrow, hnext⟩ := List.mem_flatMap.1 h
  exact List.mem_flatMap.2 ⟨row, (List.mem_filter.1 hrow).1, hnext⟩

/-- An order given by rows of a key and keys above it; a key without a row has none above. -/
def ofTable [DecidableEq K] (rows : List (K × List K)) : KeyOrder K :=
  ofFunction (rowSuccessors rows) fun _ =>
    ⟨rows.flatMap Prod.snd, fun _ => mem_of_above fun _ _ => mem_of_mem_rowSuccessors⟩

/-! ## How much of an order a walk can still meet -/

/-- The list holds every key at or above `key` that is not on the path. -/
def Covers (order : KeyOrder K) (path : List K) (key : K) (above : List K) : Prop :=
  ∀ other, other = key ∨ Above order.successors key other → other ∉ path → other ∈ above

theorem exists_covers (order : KeyOrder K) (path : List K) (key : K) :
    ∃ n above, above.length = n ∧ order.Covers path key above :=
  let ⟨above, h⟩ := order.finite_above key
  ⟨_, key :: above, rfl, fun other hother _ =>
    List.mem_cons.2 (hother.imp_right (h other))⟩

private theorem exists_least {p : Nat → Prop} (h : ∃ n, p n) : ∃ n, p n ∧ ∀ m, p m → n ≤ m := by
  obtain ⟨n, hn⟩ := h
  induction n using Nat.strongRecOn with
  | ind n ih =>
    by_cases hm : ∃ m, m < n ∧ p m
    · obtain ⟨m, hlt, hp⟩ := hm
      exact ih m hlt hp
    · exact ⟨n, hn, fun m hp => Nat.le_of_not_lt fun hlt => hm ⟨m, hlt, hp⟩⟩

/-- The number of keys at or above `key` that are not on the path. -/
noncomputable def extent (order : KeyOrder K) (path : List K) (key : K) : Nat :=
  (exists_least (order.exists_covers path key)).choose

theorem exists_covers_extent (order : KeyOrder K) (path : List K) (key : K) :
    ∃ above, above.length = order.extent path key ∧ order.Covers path key above :=
  (exists_least (order.exists_covers path key)).choose_spec.1

theorem extent_le {order : KeyOrder K} {path : List K} {key : K} {above : List K}
    (h : order.Covers path key above) : order.extent path key ≤ above.length :=
  (exists_least (order.exists_covers path key)).choose_spec.2 _ ⟨above, rfl, h⟩

theorem extent_lt [DecidableEq K] {order : KeyOrder K} {path : List K} {key next : K}
    (hkey : key ∉ path) (hnext : next ∈ order.successors key) :
    order.extent (key :: path) next < order.extent path key := by
  obtain ⟨above, hlen, hcov⟩ := order.exists_covers_extent path key
  have hmem : key ∈ above := hcov key (.inl rfl) hkey
  have hle : order.extent (key :: path) next ≤ (above.erase key).length := by
    refine extent_le fun other hother hnew => ?_
    rw [List.mem_cons, not_or] at hnew
    have habove : Above order.successors key other := by
      rcases hother with rfl | hother
      · exact .single hnext
      · exact .trans (.single hnext) hother
    exact (List.mem_erase_of_ne hnew.1).2 (hcov other (.inr habove) hnew.2)
  have hpos := List.length_pos_of_mem hmem
  rw [List.length_erase_of_mem hmem] at hle
  omega

/-- What holds of a key on a path whenever it holds of the successors of a key that is new to
the path, with the key put on the path, holds of every key on every path. -/
theorem walk_induction [DecidableEq K] (order : KeyOrder K) {motive : List K → K → Prop}
    (step : ∀ path key, (key ∉ path → ∀ next ∈ order.successors key, motive (key :: path) next) →
      motive path key)
    (path : List K) (key : K) : motive path key := by
  induction h : order.extent path key using Nat.strongRecOn generalizing path key with
  | ind n ih =>
    subst h
    exact step path key fun hkey next hnext => ih _ (extent_lt hkey hnext) _ _ rfl

end KeyOrder

/-! ## Which keys can be queried -/

/-- A choice of the keys that can be queried. -/
inductive KeyFilter (K : Type)
  | predicate (holds : K → Bool)
  | keySet (keys : OrderedSet K)

namespace KeyFilter

variable {K : Type}

def accepts [DecidableEq K] : KeyFilter K → K → Bool
  | predicate holds, key => holds key
  | keySet keys, key => decide (key ∈ keys)

/-- The text that shows a filter in dumps. A predicate shows nothing of itself. -/
def describe [Quotable K] : KeyFilter K → String
  | predicate _ => "Predicate(..)"
  | keySet keys => "KeySet(\x7b" ++ ", ".intercalate (keys.toList.map quote) ++ "\x7d)"

end KeyFilter

end Downset

import Downset.Proofs.Arena.Reduction
import Downset.Proofs.Index.Requests

/-!
# Making an index

An index for a set of keys locates all of them before it drops bridged links. Since each of the
keys can be queried no leaf is made on the way, and the attempt fails exactly if one of the keys
is not safe.
-/

namespace Downset

variable {K V : Type}

theorem Arena.node_empty (n : NodeId) : (∅ : Arena K V).node n = .sink := by
  obtain ⟨index⟩ := n
  cases index <;> rfl

variable [DecidableEq K] {order : KeyOrder K} {filter : KeyFilter K}

namespace Arena

theorem consistent_empty (order : KeyOrder K) (filter : KeyFilter K) (dropped : K → K → Prop) :
    Consistent order filter dropped [] (∅ : Arena K V) := by
  have hslot : ∀ key, (∅ : Arena K V).slots.find? key = none := Table.find?_empty
  have hskipped : ∀ key, (∅ : Arena K V).skipped.find? key = none := Table.find?_empty
  have habove : ∀ n m, m ∉ ((∅ : Arena K V).node n).above := by
    intro n m
    rw [node_empty]
    exact OrderedSet.not_mem_empty m
  refine ⟨⟨Nat.one_pos, rfl, ?_, ?_, ?_, ?_, ?_, ?_⟩, ?_, ?_, ?_, ?_, ?_⟩
  · intro n key hkey
    rw [node_empty] at hkey
    cases hkey
  · intro key n hn
    cases (hslot key).symm.trans hn
  · intro key n hn
    cases (hslot key).symm.trans hn
  · intro n m hm
    exact absurd hm (habove n m)
  · intro n m
    rw [node_empty, node_empty]
    exact iff_of_false (OrderedSet.not_mem_empty m) (OrderedSet.not_mem_empty n)
  · intro key found hfound
    cases (hskipped key).symm.trans hfound
  · intro key n hkey
    exact absurd hkey List.not_mem_nil
  · exact ⟨fun _ => 0, fun n m hm => absurd hm (habove n m)⟩
  · intro n m key other hm
    exact absurd hm (habove n m)
  · intro key found hfound
    cases (hskipped key).symm.trans hfound
  · intro key n other _ _ hn
    cases (hslot key).symm.trans hn

theorem meetsSafe_empty (order : KeyOrder K) : (∅ : Arena K V).MeetsSafe order [] := by
  intro other hmet
  exact absurd rfl hmet

/-- The state of an arena in which keys that can be queried are located one after another. -/
structure Prepared (order : KeyOrder K) (filter : KeyFilter K) (arena : Arena K V) : Prop where
  consistent : Consistent order filter (fun _ _ => False) [] arena
  meetsSafe : arena.MeetsSafe order []
  ne_leaf : ∀ n, (arena.node n).kind ≠ .leaf
  values : ∀ n, (arena.node n).values = ∅

theorem prepared_empty (order : KeyOrder K) (filter : KeyFilter K) :
    Prepared order filter (∅ : Arena K V) := by
  refine ⟨consistent_empty order filter _, meetsSafe_empty order, ?_, ?_⟩
  · intro n hleaf
    rw [node_empty] at hleaf
    cases hleaf
  · intro n
    rw [node_empty]
    rfl

theorem Locates.prepared {arena after : Arena K V} {key : K} {id : NodeId}
    (hlocates : arena.Locates order filter (fun _ _ => False) key id after)
    (hkey : filter.accepts key = true) (h : Prepared order filter arena) :
    Prepared order filter after where
  consistent := hlocates.consistent
  meetsSafe := (hlocates.safe h.meetsSafe).1
  ne_leaf n hn := h.ne_leaf n (hlocates.leaf hkey n hn)
  values n := (hlocates.values n).trans (h.values n)

theorem Prepared.dropTransitive {arena : Arena K V} (h : Prepared order filter arena) :
    Consistent order filter (order.Bridged filter) [] arena.dropTransitive ∧
      arena.dropTransitive.MeetsSafe order [] ∧ ∀ n, (arena.dropTransitive.node n).values = ∅ := by
  refine ⟨h.consistent.dropTransitive h.ne_leaf, ?_, ?_⟩
  · exact sameNodes_unlinkAll.meetsSafe h.meetsSafe
  · intro n
    rw [dropTransitive_eq, values_unlinkAll]
    exact h.values n

end Arena

namespace Index

variable {keys : List K}

/-- All keys of a list are located if all are safe. Otherwise the attempt stops at a key on a
cycle at or above one of them. -/
theorem locateAll_cases (index : Index K V) (hkeys : ∀ key ∈ keys, index.filter.accepts key = true)
    (h : Arena.Prepared index.order index.filter index.arena) :
    (∃ after, index.locateAll keys = .ok { index with arena := after } ∧
      Arena.Prepared index.order index.filter after ∧ ∀ key ∈ keys, index.order.Safe key) ∨
    ∃ key ∈ keys, ∃ twice,
      index.locateAll keys = .error (.cycleDetected index.order.name (index.render twice)) ∧
      Reaches index.order.successors key twice ∧ OnCycle index.order.successors twice := by
  induction keys generalizing index with
  | nil => exact .inl ⟨index.arena, rfl, h, fun key hkey => absurd hkey List.not_mem_nil⟩
  | cons key rest ih =>
    have hrest := fun later hlater => hkeys later (List.mem_cons_of_mem key hlater)
    unfold locateAll
    rcases index.locate_cases key h.consistent with
      ⟨id, after, hlocate, hlocates⟩ | ⟨twice, after, hlocate, habandons⟩
    · rw [hlocate]
      have hafter := hlocates.prepared (hkeys key List.mem_cons_self) h
      have hsafe := (hlocates.safe h.meetsSafe).2
      refine (ih { index with arena := after } hrest hafter).imp ?_ ?_
      · rintro ⟨last, hlast, hprepared, hall⟩
        refine ⟨last, hlast, hprepared, ?_⟩
        intro other hother
        rcases List.mem_cons.1 hother with rfl | hother
        · exact hsafe
        · exact hall other hother
      · rintro ⟨other, hother, hfails⟩
        exact ⟨other, List.mem_cons_of_mem key hother, hfails⟩
    · rw [hlocate]
      exact .inr ⟨key, List.mem_cons_self, twice, rfl, habandons.reaches, habandons.onCycle⟩

/-- The filter of an index that was made for the keys of a list accepts just these. -/
def keyFilter (keys : List K) : KeyFilter K := .keySet (OrderedSet.ofList keys)

variable [Quotable K]

/-- An index for a list of keys is made if all are safe. -/
theorem ofKeys_cases (order : KeyOrder K) (keys : List K) :
    (∃ arena : Arena K V, Index.ofKeys order keys =
        .ok { empty order (keyFilter keys) quote with arena := arena.dropTransitive } ∧
      Arena.Prepared order (keyFilter keys) arena ∧ ∀ key ∈ keys, order.Safe key) ∨
    ∃ key ∈ keys, ∃ twice,
      (Index.ofKeys order keys : Except Fault (Index K V)) =
        .error (.cycleDetected order.name (quote twice)) ∧
      Reaches order.successors key twice ∧ OnCycle order.successors twice := by
  have haccepts : ∀ key ∈ (OrderedSet.ofList keys).toList, (keyFilter keys).accepts key = true :=
    fun key hkey => decide_eq_true hkey
  have hcases := locateAll_cases (empty order (keyFilter keys) quote : Index K V) haccepts
    (Arena.prepared_empty order (keyFilter keys))
  have hmem : ∀ key, key ∈ (OrderedSet.ofList keys).toList ↔ key ∈ keys :=
    fun key => OrderedSet.mem_ofList
  simp only [hmem] at hcases
  rcases hcases with ⟨arena, hall, hprepared, hsafe⟩ | ⟨key, hkey, twice, hall, hcycle⟩
  · refine .inl ⟨arena, ?_, hprepared, hsafe⟩
    unfold ofKeys
    exact congrArg (Except.map _) hall
  · refine .inr ⟨key, hkey, twice, ?_, hcycle⟩
    unfold ofKeys
    exact congrArg (Except.map _) hall

theorem ofKeys_of_safe {keys : List K} (h : ∀ key ∈ keys, order.Safe key) :
    ∃ index : Index K V, ofKeys order keys = .ok index := by
  rcases ofKeys_cases order keys with ⟨arena, hmade, _⟩ | ⟨key, hkey, twice, _, hreaches, hcycle⟩
  · exact ⟨_, hmade⟩
  · exact absurd hcycle (h key hkey twice hreaches)

theorem Initial.phase_eq {index : Index K V} (h : index.Initial order) :
    index.phase = .writable := by
  induction h with
  | ofPredicate holds => rfl
  | @ofKeys keys index made =>
    rcases ofKeys_cases order keys with ⟨arena, hmade, _⟩ | ⟨_, _, _, hfails, _⟩
    · rw [made, Except.ok.injEq] at hmade
      exact congrArg Index.phase hmade
    · rw [made] at hfails
      cases hfails
  | withRender initial render ih => exact ih

theorem accepts_of_ofKeys {index : Index K V} {keys : List K}
    (hmade : ofKeys order keys = .ok index) (key : K) :
    index.filter.accepts key = true ↔ key ∈ keys := by
  rcases ofKeys_cases order keys with ⟨arena, hmade', _⟩ | ⟨_, _, _, hfails, _⟩
  · rw [hmade, Except.ok.injEq] at hmade'
    subst hmade'
    exact decide_eq_true_iff.trans OrderedSet.mem_ofList
  · rw [hmade] at hfails
    cases hfails

end Index

end Downset

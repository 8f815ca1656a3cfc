import Downset.Proofs.Arena.Combined
import Downset.Proofs.Arena.Values
import Downset.Proofs.Build.Consistency
import Downset.Proofs.Index.History

/-!
# What the requests to an index do

Each request is described by what it answers and by what the index is afterwards, so that later
proofs need not look into the requests.
-/

namespace Downset

variable {K V : Type} [DecidableEq K] {order : KeyOrder K} {filter : KeyFilter K}
  {dropped : K → K → Prop} {arena after : Arena K V} {index : Index K V} {key : K} {value : V}

/-- How an arena has changed when a key was located in it. -/
structure Arena.Locates (order : KeyOrder K) (filter : KeyFilter K) (dropped : K → K → Prop)
    (arena : Arena K V) (key : K) (id : NodeId) (after : Arena K V) : Prop
    extends Extends arena after where
  consistent : Consistent order filter dropped [] after
  located : after.slots.find? key = some id
  leaf : filter.accepts key = true → ∀ n, (after.node n).kind = .leaf → (arena.node n).kind = .leaf
  safe : arena.MeetsSafe order [] → after.MeetsSafe order [] ∧ order.Safe key

/-- How an arena has changed when locating a key in it stopped at a cycle. -/
structure Arena.Abandons (order : KeyOrder K) (filter : KeyFilter K) (dropped : K → K → Prop)
    (arena : Arena K V) (key twice : K) (after : Arena K V) : Prop
    extends Extends arena after where
  consistent : Consistent order filter dropped [] after
  reaches : Reaches order.successors key twice
  onCycle : OnCycle order.successors twice

theorem Build.locate_spec (h : Arena.Consistent order filter dropped [] arena) :
    (locate order filter key).Ends arena (arena.Locates order filter dropped key)
      (arena.Abandons order filter dropped key) := by
  refine ((locate_consistent h).and (locate_stuck.and (.under locate_meetsSafe))).mono ?_ ?_
  · rintro id after ⟨⟨hconsistent, hextends, hslot, hleaf⟩, _, hsafe⟩
    exact ⟨hextends, hconsistent, hslot, hleaf, hsafe⟩
  · rintro twice after ⟨⟨hconsistent, hextends⟩, ⟨hreaches, hcycle⟩, _⟩
    exact ⟨hextends, hconsistent, hreaches, hcycle⟩

namespace Index

theorem locate_ends {done : NodeId → Arena K V → Prop} {stuck : K → Arena K V → Prop}
    (h : (Build.locate index.order index.filter key).Ends index.arena done stuck) :
    (∃ id after, index.locate key = (.ok id, { index with arena := after }) ∧ done id after) ∨
    ∃ twice after,
      index.locate key = (.error (.cycleDetected index.order.name (index.render twice)),
        { index with arena := after }) ∧ stuck twice after := by
  unfold Build.Ends at h
  unfold locate
  rcases hrun : (Build.locate index.order index.filter key).run index.arena with ⟨id | id, after⟩
  · rw [hrun] at h
    exact .inr ⟨id, after, rfl, h⟩
  · rw [hrun] at h
    exact .inl ⟨id, after, rfl, h⟩

theorem locate_cases (key : K)
    (h : Arena.Consistent index.order index.filter dropped [] index.arena) :
    (∃ id after, index.locate key = (.ok id, { index with arena := after }) ∧
      index.arena.Locates index.order index.filter dropped key id after) ∨
    ∃ twice after,
      index.locate key = (.error (.cycleDetected index.order.name (index.render twice)),
        { index with arena := after }) ∧
      index.arena.Abandons index.order index.filter dropped key twice after :=
  locate_ends (Build.locate_spec h)

variable [DecidableEq V]

theorem put_of_ne_writable (h : index.phase ≠ .writable) :
    index.put key value = (.error (.phaseViolation .writable index.phase), index) := by
  unfold put Phase.require
  rw [if_neg h]

theorem put_of_located {id : NodeId} (h : index.phase = .writable)
    (hlocate : index.locate key = (.ok id, { index with arena := after })) :
    index.put key value =
      (.ok (), { index with arena := after.modify id (·.accept value) }) := by
  unfold put Phase.require
  rw [if_pos h, hlocate]

theorem put_of_abandoned {fault : Fault} (h : index.phase = .writable)
    (hlocate : index.locate key = (.error fault, { index with arena := after })) :
    index.put key value = (.error fault, { index with arena := after }) := by
  unfold put Phase.require
  rw [if_pos h, hlocate]

theorem get_of_ne_readable (h : index.phase ≠ .readable) :
    index.get key = (.error (.phaseViolation .readable index.phase), index) := by
  unfold get Phase.require
  rw [if_neg h]

/-- In the readable phase the answer holds what flows to the query node of the key, if there is
one, and nothing but caches changes. -/
theorem get_spec (key : K) (hphase : index.phase = .readable)
    (h : index.arena.WellFormed filter) (hacyclic : ∀ n, ¬ OnCycle index.arena.uppers n)
    (hexact : index.arena.ExactCaches index.caches) :
    ∃ found caches, index.get key = (.ok found, { index with caches := caches }) ∧
      index.arena.ExactCaches caches ∧
      ∀ value, value ∈ found ↔ ∃ n, index.arena.slots.find? key = some n ∧
        (index.arena.node n).kind = .query ∧ index.arena.Combined n value := by
  unfold get Phase.require
  rw [if_pos hphase]
  cases hslot : index.arena.slots.find? key with
  | none =>
    refine ⟨∅, index.caches, rfl, hexact, fun value => ?_⟩
    simp
  | some n =>
    by_cases hkind : (index.arena.node n).kind = .query
    · obtain ⟨hafter, cache, hcache, hvalues⟩ :=
        Arena.aggregate_exact h hacyclic hexact hkind
      refine ⟨cache.values, _, ?_, hafter, fun value => ?_⟩
      · simp only [hkind, hcache, if_true, Option.map_some, Option.getD_some]
      · rw [hvalues]
        simp [hkind]
    · refine ⟨∅, index.caches, ?_, hexact, fun value => ?_⟩
      · simp only [hkind, if_false]
      · simp [hkind]

end Index

end Downset

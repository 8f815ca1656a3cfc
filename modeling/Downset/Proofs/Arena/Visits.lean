import Downset.Proofs.Arena.Sweep
import Downset.Proofs.Order.Safety

/-!
# Which nodes a sweep visits

A sweep stores something at each node below which it looked, once the nodes below are done. It
looks below no node twice, since a node is met before the nodes below it are. Only the node
where a sweep starts is not marked as met, and there the links have to be free of cycles.
-/

namespace Downset

variable {K V : Type}

/-- Nothing was stored twice in this sweep, or at a node that was not met. -/
structure Sweep.Tidy (sweep : Sweep V) : Prop where
  nodup : sweep.stored.Nodup
  met : ∀ id ∈ sweep.stored, id ∈ sweep.seen

theorem Sweep.Tidy.meet {sweep : Sweep V} {id : NodeId} (h : sweep.Tidy) : (sweep.meet id).Tidy :=
  ⟨h.nodup, fun other hother => List.mem_cons_of_mem id (h.met other hother)⟩

namespace Arena

variable {arena : Arena K V} {id n : NodeId} {ids rest : List NodeId}
  {sweep first inner after : Sweep V} {cache : Cache V}

/-- A sweep over the nodes of a list meets only those nodes and nodes below them, and stores
nothing at a node that was met before. -/
structure Visits (arena : Arena K V) (ids : List NodeId) (sweep after : Sweep V) : Prop
    extends after.Tidy where
  kept : ∀ id ∈ sweep.seen, id ∈ after.seen
  below : ∀ id ∈ after.seen, id ∈ sweep.seen ∨ ∃ top ∈ ids, Reaches arena.uppers id top
  unmet : ∀ id ∈ after.stored, id ∈ sweep.stored ∨ id ∉ sweep.seen

namespace Visits

theorem meet (h : sweep.Tidy) : arena.Visits [id] sweep (sweep.meet id) := by
  refine ⟨h.meet, ?_, ?_, ?_⟩
  · intro other hother
    exact List.mem_cons_of_mem id hother
  · intro other hother
    rcases List.mem_cons.1 hother with rfl | hother
    · exact .inr ⟨other, List.mem_singleton.2 rfl, .refl⟩
    · exact .inl hother
  · intro other hother
    exact .inl hother

theorem not_mem_stored (h : sweep.Tidy) (hid : id ∉ sweep.seen)
    (hinner : arena.Visits ids (sweep.meet id) inner) : id ∉ inner.stored := by
  intro hstored
  rcases hinner.unmet id hstored with hbefore | hunmet
  · exact hid (h.met id hbefore)
  · exact hunmet List.mem_cons_self

theorem deep (hmirror : ∀ {n m}, m ∈ (arena.node n).above ↔ n ∈ (arena.node m).below)
    (h : sweep.Tidy) (hid : id ∉ sweep.seen)
    (hinner : arena.Visits (arena.node id).below.toList (sweep.meet id) inner) :
    arena.Visits [id] sweep (inner.store id cache) := by
  refine ⟨⟨?_, ?_⟩, ?_, ?_, ?_⟩
  · exact List.nodup_cons.2 ⟨not_mem_stored h hid hinner, hinner.nodup⟩
  · intro other hother
    rcases List.mem_cons.1 hother with rfl | hother
    · exact hinner.kept other List.mem_cons_self
    · exact hinner.met other hother
  · intro other hother
    exact hinner.kept other (List.mem_cons_of_mem id hother)
  · intro other hother
    rcases hinner.below other hother with hseen | ⟨lower, hlower, hflow⟩
    · rcases List.mem_cons.1 hseen with rfl | hseen
      · exact .inr ⟨other, List.mem_singleton.2 rfl, .refl⟩
      · exact .inl hseen
    · exact .inr ⟨id, List.mem_singleton.2 rfl, hflow.tail (hmirror.2 hlower)⟩
  · intro other hother
    rcases List.mem_cons.1 hother with rfl | hother
    · exact .inr hid
    · rcases hinner.unmet other hother with hstored | hunmet
      · exact .inl hstored
      · exact .inr fun hseen => hunmet (List.mem_cons_of_mem id hseen)

theorem nil (h : sweep.Tidy) : arena.Visits [] sweep sweep :=
  ⟨h, fun _ hseen => hseen, fun _ hseen => .inl hseen, fun _ hstored => .inl hstored⟩

theorem again (hrest : arena.Visits rest sweep after) : arena.Visits (id :: rest) sweep after := by
  refine ⟨hrest.toTidy, hrest.kept, ?_, hrest.unmet⟩
  intro other hother
  refine (hrest.below other hother).imp_right ?_
  rintro ⟨top, htop, hflow⟩
  exact ⟨top, List.mem_cons_of_mem id htop, hflow⟩

theorem cons (hfirst : arena.Visits [id] sweep first) (hrest : arena.Visits rest first after) :
    arena.Visits (id :: rest) sweep after := by
  refine ⟨hrest.toTidy, ?_, ?_, ?_⟩
  · intro other hother
    exact hrest.kept other (hfirst.kept other hother)
  · intro other hother
    rcases hrest.below other hother with hother | ⟨top, htop, hflow⟩
    · rcases hfirst.below other hother with hseen | ⟨top, htop, hflow⟩
      · exact .inl hseen
      · rw [List.mem_singleton.1 htop] at hflow
        exact .inr ⟨id, List.mem_cons_self, hflow⟩
    · exact .inr ⟨top, List.mem_cons_of_mem id htop, hflow⟩
  · intro other hother
    rcases hrest.unmet other hother with hother | hunmet
    · exact hfirst.unmet other hother
    · exact .inr fun hseen => hunmet (hfirst.kept other hseen)

end Visits

variable [DecidableEq V]

theorem visits_collect (hmirror : ∀ {n m}, m ∈ (arena.node n).above ↔ n ∈ (arena.node m).below)
    (ids : List NodeId) (found : Cache V) (sweep : Sweep V) (h : sweep.Tidy) :
    arena.Visits ids sweep (arena.collect ids found sweep).sweep := by
  refine sweep_induction arena
    (fun id sweep first => sweep.Tidy → arena.Visits [id] sweep first.sweep)
    (fun ids _ sweep result => sweep.Tidy → arena.Visits ids sweep result.sweep)
    ?known ?flat ?deep ?nil ?again ?cons ids found sweep h
  case known =>
    intro id sweep values _ _ _ h
    exact .meet h
  case flat =>
    intro id sweep _ _ h
    exact .meet h
  case deep =>
    intro id sweep inner hid _ _ hinner h
    exact .deep hmirror h hid (hinner h.meet)
  case nil =>
    intro found sweep h
    exact .nil h
  case again =>
    intro id rest found sweep result _ hrest h
    exact .again (hrest h)
  case cons =>
    intro id rest found sweep first result _ hfirst hrest h
    exact .cons (hfirst h) (hrest (hfirst h).toTidy)

/-- A sweep meets nodes below the one where it starts, and no others. -/
theorem mem_seen_aggregate (hmirror : ∀ {n m}, m ∈ (arena.node n).above ↔ n ∈ (arena.node m).below)
    {caches : Table NodeId (Cache V)} (hn : n ∈ (arena.aggregate id (.start caches)).seen) :
    ∃ lower, id ∈ (arena.node lower).above ∧ Reaches arena.uppers n lower := by
  rcases arena.aggregate_cases id (.start caches) with hsame | ⟨_, _, hstore⟩
  · rw [hsame] at hn
    exact absurd hn List.not_mem_nil
  · rw [hstore] at hn
    have hvisits := visits_collect hmirror (arena.node id).below.toList
      ⟨(arena.node id).values, true⟩ (.start caches) ⟨List.nodup_nil, fun _ h => h⟩
    rcases hvisits.below n hn with hnil | ⟨lower, hlower, hflow⟩
    · exact absurd hnil List.not_mem_nil
    · exact ⟨lower, hmirror.2 hlower, hflow⟩

/-- A sweep looks below each node at most once and does not come back to where it started. -/
theorem aggregate_once (hmirror : ∀ {n m}, m ∈ (arena.node n).above ↔ n ∈ (arena.node m).below)
    (hacyclic : ∀ n, ¬ OnCycle arena.uppers n) (caches : Table NodeId (Cache V)) (id : NodeId) :
    (arena.aggregate id (.start caches)).stored.Nodup ∧
      id ∉ (arena.aggregate id (.start caches)).seen := by
  have hid : id ∉ (arena.aggregate id (.start caches)).seen := by
    intro hseen
    obtain ⟨lower, hlower, hflow⟩ := mem_seen_aggregate hmirror hseen
    exact hacyclic id (.tail' hflow hlower)
  refine ⟨?_, hid⟩
  rcases arena.aggregate_cases id (.start caches) with hsame | ⟨_, _, hstore⟩
  · rw [hsame]
    exact List.nodup_nil
  · rw [hstore] at hid ⊢
    have hvisits := visits_collect hmirror (arena.node id).below.toList
      ⟨(arena.node id).values, true⟩ (.start caches) ⟨List.nodup_nil, fun _ h => h⟩
    exact List.nodup_cons.2 ⟨fun hstored => hid (hvisits.met id hstored), hvisits.nodup⟩

end Arena

end Downset

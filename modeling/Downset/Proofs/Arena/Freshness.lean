import Downset.Proofs.Arena.Total

/-!
# What may be used again

A node is fresh if what is stored with it may be used again. A sweep makes nodes fresh and leaves
those that are, and it makes a node fresh only if all query nodes directly below are. What is stored
with other nodes does not enter into it: two sweeps that begin with the same fresh nodes collect the
same, and store the same at the same nodes. Each query node that a sweep takes something from was
fresh before it or had its cache stored by it.
-/

namespace Downset

variable {K V : Type}

namespace Sweep

variable {sweep : Sweep V} {id n : NodeId} {cache : Cache V}

theorem fresh?_store : (sweep.store id cache).fresh? n =
    if n = id then (if cache.isFresh then some cache.values else none) else sweep.fresh? n := by
  unfold fresh? store
  rw [Table.find?_insert]
  by_cases hn : n = id <;> simp only [hn, if_true, if_false]

/-- The sweeps differ in what is stored with nodes that are not fresh, if at all. -/
structure Alike (sweep other : Sweep V) : Prop where
  seen : other.seen = sweep.seen
  stored : other.stored = sweep.stored
  fresh? : ∀ n, other.fresh? n = sweep.fresh? n
  find? : ∀ n ∈ sweep.stored, other.caches.find? n = sweep.caches.find? n

namespace Alike

variable {other : Sweep V}

theorem meet (h : sweep.Alike other) (id : NodeId) : (sweep.meet id).Alike (other.meet id) :=
  ⟨congrArg (id :: ·) h.seen, h.stored, h.fresh?, h.find?⟩

theorem store (h : sweep.Alike other) (id : NodeId) (cache : Cache V) :
    (sweep.store id cache).Alike (other.store id cache) := by
  refine ⟨h.seen, congrArg (id :: ·) h.stored, fun n => ?_, fun n hn => ?_⟩
  · rw [fresh?_store, fresh?_store, h.fresh?]
  · simp only [Sweep.store, Table.find?_insert]
    split
    · rfl
    · next hne => exact h.find? n ((List.mem_cons.1 hn).resolve_left hne)

end Alike

/-- What a sweep stores, it adds to what was stored before. -/
structure Grows (sweep after : Sweep V) : Prop where
  stored : ∀ n ∈ sweep.stored, n ∈ after.stored
  kept : ∀ n, n ∉ after.stored → after.caches.find? n = sweep.caches.find? n

namespace Grows

variable {other after : Sweep V}

theorem refl (sweep : Sweep V) : sweep.Grows sweep := ⟨fun _ hn => hn, fun _ _ => rfl⟩

theorem trans (h : sweep.Grows other) (h' : other.Grows after) : sweep.Grows after where
  stored n hn := h'.stored n (h.stored n hn)
  kept n hn := (h'.kept n hn).trans (h.kept n fun hother => hn (h'.stored n hother))

theorem meet (sweep : Sweep V) (id : NodeId) : sweep.Grows (sweep.meet id) :=
  ⟨fun _ hn => hn, fun _ _ => rfl⟩

theorem store (sweep : Sweep V) (id : NodeId) (cache : Cache V) :
    sweep.Grows (sweep.store id cache) := by
  refine ⟨fun n hn => List.mem_cons_of_mem id hn, fun n hn => ?_⟩
  have hne : n ≠ id := fun heq => hn (heq ▸ List.mem_cons_self)
  simp only [Sweep.store, Table.find?_insert, if_neg hne]

theorem fresh? (h : sweep.Grows after) (hn : n ∉ after.stored) :
    after.fresh? n = sweep.fresh? n := by
  unfold Sweep.fresh?
  rw [h.kept n hn]

end Grows

end Sweep

namespace Arena

variable {arena : Arena K V} {id n : NodeId} {ids rest : List NodeId} {found : Cache V}
  {sweep : Sweep V} {first inner result : Collected V} {cache : Cache V}

def FreshBelow (arena : Arena K V) (sweep : Sweep V) : Prop :=
  ∀ n values, sweep.fresh? n = some values → ∀ lower ∈ (arena.node n).below,
    (arena.node lower).kind = .query → ∃ values, sweep.fresh? lower = some values

theorem freshBelow_empty (arena : Arena K V) : arena.FreshBelow (.start ∅) := by
  intro n values hfresh
  cases hfresh

/-- A node may become fresh if the query nodes directly below it are. No node above it was fresh
before, so none above it is fresh now unless it is itself. -/
theorem FreshBelow.store (h : arena.FreshBelow sweep) (hid : sweep.fresh? id = none)
    (hwhole : cache.isFresh = true → ∀ lower ∈ (arena.node id).below,
      (arena.node lower).kind = .query → ∃ values, sweep.fresh? lower = some values) :
    arena.FreshBelow (sweep.store id cache) := by
  intro n values hfresh lower hlower hkind
  have hkept : (∃ values, sweep.fresh? lower = some values) →
      ∃ values, (sweep.store id cache).fresh? lower = some values := by
    rintro ⟨values, hvalues⟩
    have hne : lower ≠ id := by
      rintro rfl
      cases hid.symm.trans hvalues
    exact ⟨values, by rw [Sweep.fresh?_store, if_neg hne, hvalues]⟩
  apply hkept
  rw [Sweep.fresh?_store] at hfresh
  split at hfresh
  · next hn =>
    subst hn
    split at hfresh
    · next hisFresh => exact hwhole hisFresh lower hlower hkind
    · cases hfresh
  · exact h n values hfresh lower hlower hkind

/-- A sweep over the nodes of a list leaves fresh nodes fresh and what is stored with nodes that it
has met before, and it collects something fresh only from nodes that are fresh at the end. -/
structure Freshens (arena : Arena K V) (ids : List NodeId) (found : Cache V) (sweep : Sweep V)
    (result : Collected V) : Prop where
  seen : ∀ n ∈ sweep.seen, n ∈ result.sweep.seen
  met : ∀ n ∈ sweep.seen, result.sweep.caches.find? n = sweep.caches.find? n
  lasting : ∀ n values, sweep.fresh? n = some values → result.sweep.fresh? n = some values
  below : arena.FreshBelow result.sweep
  whole : result.cache.isFresh = true → found.isFresh = true ∧ ∀ id ∈ ids,
    (arena.node id).kind = .query → ∃ values, result.sweep.fresh? id = some values

namespace Freshens

theorem meet {values : OrderedSet V} (h : arena.FreshBelow sweep)
    (hid : (arena.node id).kind = .query → ∃ values, sweep.fresh? id = some values) :
    arena.Freshens [id] ⟨∅, true⟩ sweep ⟨⟨values, true⟩, sweep.meet id⟩ := by
  refine ⟨fun n hn => List.mem_cons_of_mem id hn, fun _ _ => rfl, fun _ _ hfresh => hfresh, h,
    fun _ => ⟨rfl, ?_⟩⟩
  intro other hother hkind
  rw [List.mem_singleton.1 hother] at hkind ⊢
  exact hid hkind

theorem deep (hid : id ∉ sweep.seen) (hstale : sweep.fresh? id = none)
    (hinner : arena.Freshens (arena.node id).below.toList ⟨(arena.node id).values, true⟩
      (sweep.meet id) inner) :
    arena.Freshens [id] ⟨∅, true⟩ sweep ⟨inner.cache, inner.sweep.store id inner.cache⟩ := by
  have hstale' : inner.sweep.fresh? id = none := by
    unfold Sweep.fresh? at hstale ⊢
    rwa [hinner.met id List.mem_cons_self]
  refine ⟨fun n hn => hinner.seen n (List.mem_cons_of_mem id hn), fun n hn => ?_,
    fun n values hfresh => ?_, hinner.below.store hstale' fun hisFresh => (hinner.whole hisFresh).2,
    fun hisFresh => ⟨rfl, fun other hother _ => ?_⟩⟩
  · have hne : n ≠ id := fun heq => hid (heq ▸ hn)
    simp only [Sweep.store, Table.find?_insert, if_neg hne]
    exact hinner.met n (List.mem_cons_of_mem id hn)
  · have hne : n ≠ id := by
      rintro rfl
      cases hstale.symm.trans hfresh
    rw [Sweep.fresh?_store, if_neg hne, hinner.lasting n values hfresh]
  · have hisFresh : inner.cache.isFresh = true := hisFresh
    rw [Sweep.fresh?_store, if_pos (List.mem_singleton.1 hother), if_pos hisFresh]
    exact ⟨inner.cache.values, rfl⟩

theorem again (hrest : arena.Freshens rest ⟨found.values, false⟩ sweep result) :
    arena.Freshens (id :: rest) found sweep result := by
  refine ⟨hrest.seen, hrest.met, hrest.lasting, hrest.below, fun hisFresh => ?_⟩
  exact absurd (hrest.whole hisFresh).1 Bool.false_ne_true

theorem cons [DecidableEq V] (hfirst : arena.Freshens [id] ⟨∅, true⟩ sweep first)
    (hrest : arena.Freshens rest ⟨found.values ∪ first.cache.values,
      found.isFresh && first.cache.isFresh⟩ first.sweep result) :
    arena.Freshens (id :: rest) found sweep result := by
  refine ⟨fun n hn => hrest.seen n (hfirst.seen n hn), fun n hn => ?_, fun n values hfresh => ?_,
    hrest.below, fun hisFresh => ?_⟩
  · rw [hrest.met n (hfirst.seen n hn), hfirst.met n hn]
  · exact hrest.lasting n values (hfirst.lasting n values hfresh)
  · obtain ⟨hboth, hall⟩ := hrest.whole hisFresh
    obtain ⟨hfound, hisFresh⟩ := Bool.and_eq_true_iff.1 hboth
    refine ⟨hfound, fun other hother hkind => ?_⟩
    rcases List.mem_cons.1 hother with rfl | hother
    · obtain ⟨values, hfresh⟩ := (hfirst.whole hisFresh).2 other (List.mem_singleton.2 rfl) hkind
      exact ⟨values, hrest.lasting other values hfresh⟩
    · exact hall other hother hkind

end Freshens

variable [DecidableEq V]

theorem freshens_collect (ids : List NodeId) (found : Cache V) (sweep : Sweep V)
    (h : arena.FreshBelow sweep) :
    arena.Freshens ids found sweep (arena.collect ids found sweep) := by
  refine sweep_induction arena
    (fun id sweep first => arena.FreshBelow sweep → arena.Freshens [id] ⟨∅, true⟩ sweep first)
    (fun ids found sweep result => arena.FreshBelow sweep → arena.Freshens ids found sweep result)
    ?known ?flat ?deep ?nil ?again ?cons ids found sweep h
  case known =>
    intro id sweep values _ _ hfresh h
    exact .meet h fun _ => ⟨values, hfresh⟩
  case flat =>
    intro id sweep _ hkind h
    exact .meet h fun hquery => absurd hquery hkind
  case deep =>
    intro id sweep inner hid _ hstale hinner h
    exact .deep hid hstale (hinner h)
  case nil =>
    intro found sweep h
    exact ⟨fun _ hn => hn, fun _ _ => rfl, fun _ _ hfresh => hfresh, h,
      fun hisFresh => ⟨hisFresh, fun id hid => absurd hid List.not_mem_nil⟩⟩
  case again =>
    intro id rest found sweep result _ hrest h
    exact .again (hrest h)
  case cons =>
    intro id rest found sweep first result _ hfirst hrest h
    exact .cons (hfirst h) (hrest (hfirst h).below)

/-- What a sweep collects depends on what is stored with fresh nodes, and on nothing else that is
stored. -/
theorem alike_collect (ids : List NodeId) (found : Cache V) {sweep other : Sweep V}
    (h : sweep.Alike other) :
    (arena.collect ids found other).cache = (arena.collect ids found sweep).cache ∧
      (arena.collect ids found sweep).sweep.Alike (arena.collect ids found other).sweep := by
  refine sweep_induction arena
    (fun id sweep first => ∀ other, sweep.Alike other →
      (arena.take id other).cache = first.cache ∧ first.sweep.Alike (arena.take id other).sweep)
    (fun ids found sweep result => ∀ other, sweep.Alike other →
      (arena.collect ids found other).cache = result.cache ∧
        result.sweep.Alike (arena.collect ids found other).sweep)
    ?known ?flat ?deep ?nil ?again ?cons ids found sweep other h
  case known =>
    intro id sweep values _ hkind hfresh other h
    rw [take, hkind, h.fresh?, hfresh]
    exact ⟨rfl, h.meet id⟩
  case flat =>
    intro id sweep _ hkind other h
    rw [take_of_ne_query hkind]
    exact ⟨rfl, h.meet id⟩
  case deep =>
    intro id sweep inner _ hkind hstale hinner other h
    obtain ⟨hcache, hafter⟩ := hinner (other.meet id) (h.meet id)
    rw [take, hkind, h.fresh?, hstale]
    refine ⟨hcache, ?_⟩
    simp only [hcache]
    exact hafter.store id inner.cache
  case nil =>
    intro found sweep other h
    rw [collect_nil]
    exact ⟨rfl, h⟩
  case again =>
    intro id rest found sweep result hid hrest other h
    rw [collect_cons_of_mem (h.seen ▸ hid)]
    exact hrest other h
  case cons =>
    intro id rest found sweep first result hid hfirst hrest other h
    obtain ⟨hcache, hafter⟩ := hfirst other h
    rw [collect_cons (h.seen ▸ hid), hcache]
    exact hrest _ hafter

/-- Every query node that a sweep met was fresh before it, or its cache was stored by it. -/
structure Renews (arena : Arena K V) (sweep after : Sweep V) : Prop extends sweep.Grows after where
  met : ∀ n ∈ after.seen, (arena.node n).kind = .query →
    n ∈ sweep.seen ∨ (∃ values, sweep.fresh? n = some values) ∨ n ∈ after.stored

omit [DecidableEq V] in
theorem Renews.meet (h : (arena.node id).kind = .query → ∃ values, sweep.fresh? id = some values) :
    arena.Renews sweep (sweep.meet id) := by
  refine ⟨.meet sweep id, fun n hn hkind => ?_⟩
  rcases List.mem_cons.1 hn with rfl | hn
  · exact .inr (.inl (h hkind))
  · exact .inl hn

omit [DecidableEq V] in
theorem Renews.trans {other after : Sweep V} (h : arena.Renews sweep other)
    (h' : arena.Renews other after) : arena.Renews sweep after := by
  refine ⟨h.toGrows.trans h'.toGrows, fun n hn hkind => ?_⟩
  rcases h'.met n hn hkind with hother | ⟨values, hfresh⟩ | hstored
  · exact (h.met n hother hkind).imp_right (.imp_right (h'.stored n))
  · by_cases hstored : n ∈ other.stored
    · exact .inr (.inr (h'.stored n hstored))
    · exact .inr (.inl ⟨values, (h.fresh? hstored).symm.trans hfresh⟩)
  · exact .inr (.inr hstored)

theorem renews_collect (ids : List NodeId) (found : Cache V) (sweep : Sweep V) :
    arena.Renews sweep (arena.collect ids found sweep).sweep := by
  refine sweep_induction arena (fun _ sweep first => arena.Renews sweep first.sweep)
    (fun _ _ sweep result => arena.Renews sweep result.sweep)
    ?known ?flat ?deep ?nil ?again ?cons ids found sweep
  case known => exact fun id sweep values _ _ hfresh => .meet fun _ => ⟨values, hfresh⟩
  case flat => exact fun id sweep _ hkind => .meet fun hquery => absurd hquery hkind
  case deep =>
    intro id sweep inner _ _ _ hinner
    refine ⟨((Sweep.Grows.meet sweep id).trans hinner.toGrows).trans (.store _ id _), ?_⟩
    intro n hn hkind
    rcases hinner.met n hn hkind with hseen | hfresh | hstored
    · rcases List.mem_cons.1 hseen with rfl | hseen
      · exact .inr (.inr List.mem_cons_self)
      · exact .inl hseen
    · exact .inr (.inl hfresh)
    · exact .inr (.inr (List.mem_cons_of_mem id hstored))
  case nil => exact fun _ sweep => ⟨.refl sweep, fun _ hn _ => .inl hn⟩
  case again => exact fun _ _ _ _ _ _ hrest => hrest
  case cons => exact fun _ _ _ _ _ _ _ hfirst hrest => hfirst.trans hrest

section Aggregate

variable {caches : Table NodeId (Cache V)}

theorem renews_aggregate (id : NodeId) (sweep : Sweep V) :
    arena.Renews sweep (arena.aggregate id sweep) := by
  rcases arena.aggregate_cases id sweep with hsame | ⟨_, _, hstore⟩
  · rw [hsame]
    exact ⟨.refl sweep, fun _ hn _ => .inl hn⟩
  · rw [hstore]
    obtain ⟨hgrows, hmet⟩ := arena.renews_collect (arena.node id).below.toList
      ⟨(arena.node id).values, true⟩ sweep
    refine ⟨hgrows.trans (.store _ id _), fun n hn hquery => ?_⟩
    exact (hmet n hn hquery).imp_right (.imp_right (List.mem_cons_of_mem id))

theorem mem_stored_aggregate (hkind : (arena.node id).kind = .query) (sweep : Sweep V) :
    (∃ values, sweep.fresh? id = some values) ∨ id ∈ (arena.aggregate id sweep).stored := by
  cases hfresh : sweep.fresh? id with
  | some values => exact .inl ⟨values, rfl⟩
  | none =>
    rw [aggregate_of_stale hkind hfresh]
    exact .inr List.mem_cons_self

/-- A sweep from a node leaves fresh nodes fresh, and the query nodes below fresh nodes too. -/
theorem aggregate_freshens
    (hmirror : ∀ {n m}, m ∈ (arena.node n).above ↔ n ∈ (arena.node m).below)
    (hacyclic : ∀ n, ¬ OnCycle arena.uppers n) (h : arena.FreshBelow (.start caches))
    (id : NodeId) :
    arena.FreshBelow (arena.aggregate id (.start caches)) ∧
      ∀ n values, (Sweep.start caches).fresh? n = some values →
        (arena.aggregate id (.start caches)).fresh? n = some values := by
  rcases arena.aggregate_cases id (.start caches) with hsame | ⟨_, hfresh, hstore⟩
  · rw [hsame]
    exact ⟨h, fun _ _ hn => hn⟩
  · rw [hstore]
    obtain ⟨_, _, hlasting, hbelow, hwhole⟩ := freshens_collect (arena.node id).below.toList
      ⟨(arena.node id).values, true⟩ (.start caches) h
    have hbelow' : ¬ ∃ top ∈ (arena.node id).below.toList, Reaches arena.uppers id top := by
      rintro ⟨top, htop, hup⟩
      exact hacyclic id (.tail' hup (hmirror.2 htop))
    have hstale : (arena.collect (arena.node id).below.toList ⟨(arena.node id).values, true⟩
        (.start caches)).sweep.fresh? id = none := by
      unfold Sweep.fresh? at hfresh ⊢
      rwa [(touches_collect hmirror _ _ _ id).resolve_right fun htouched => hbelow' htouched.2]
    refine ⟨hbelow.store hstale fun hisFresh => (hwhole hisFresh).2, fun n values hn => ?_⟩
    have hne : n ≠ id := by
      rintro rfl
      cases hfresh.symm.trans hn
    rw [Sweep.fresh?_store, if_neg hne, hlasting n values hn]

theorem alike_aggregate (id : NodeId) {sweep other : Sweep V} (h : sweep.Alike other) :
    (arena.aggregate id sweep).Alike (arena.aggregate id other) := by
  by_cases hkind : (arena.node id).kind = .query
  · cases hfresh : sweep.fresh? id with
    | some values =>
      rw [aggregate_of_fresh hfresh, aggregate_of_fresh ((h.fresh? id).trans hfresh)]
      exact h
    | none =>
      rw [aggregate_of_stale hkind hfresh,
        aggregate_of_stale hkind ((h.fresh? id).trans hfresh)]
      obtain ⟨hcache, hafter⟩ := arena.alike_collect (arena.node id).below.toList
        ⟨(arena.node id).values, true⟩ h
      simp only [hcache]
      exact hafter.store id _
  · rw [aggregate_of_ne_query hkind, aggregate_of_ne_query hkind]
    exact h

end Aggregate

end Arena

end Downset

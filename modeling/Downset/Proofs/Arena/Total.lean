import Downset.Proofs.Arena.Combined
import Downset.Proofs.Arena.Union
import Mathlib.Data.List.Basic

/-!
# Combined values in their order

The total of a node lists its own values and then the totals of the nodes below it, each value at
its first place. A sweep takes short cuts: it leaves out nodes met before, and takes a cache for
what lies below a node. Still it collects the total, in the order of the total, up to values that
are known at the point from where the sweep went down: what was left out is known there. Where a
sweep starts nothing is known, and there it collects the total itself.
-/

namespace Downset

variable {K V : Type} [DecidableEq V]

namespace Arena

variable {arena : Arena K V} {id n m : NodeId} {ids rest : List NodeId} {path : List NodeId}
  {known : List V} {value : V}

/-- The values at a node and below it, by way of a path that leads down to it. -/
def totalFrom (arena : Arena K V) (path : List NodeId) (id : NodeId) : OrderedSet V :=
  if _ : id ∈ path then ∅
  else
    match _ : arena.node id with
    | .query _ values below _ =>
      .ofList (values.toList ++
        below.toList.flatMap fun lower => (arena.totalFrom (id :: path) lower).toList)
    | .leaf _ values _ => values
    | .sink => ∅
termination_by remaining arena.ids path
decreasing_by
  exact remaining_lt (mem_ids_of_node_eq_query ‹arena.node id = _›) ‹id ∉ path›
    List.mem_cons_self fun _ h => List.mem_cons_of_mem _ h

/-- All values at a node and below it, in the order in which a reader sees them. -/
def total (arena : Arena K V) (id : NodeId) : OrderedSet V := arena.totalFrom [] id

theorem totalFrom_of_query (hid : id ∉ path) (hkind : (arena.node id).kind = .query) :
    arena.totalFrom path id = .ofList ((arena.node id).values.toList ++
      (arena.node id).below.toList.flatMap fun lower =>
        (arena.totalFrom (id :: path) lower).toList) := by
  rw [totalFrom, dif_neg hid]
  split
  · next hnode => rw [hnode]; rfl
  · next hnode => simp [hnode, Node.kind] at hkind
  · next hnode => simp [hnode, Node.kind] at hkind

theorem totalFrom_of_ne_query (hid : id ∉ path) (hkind : (arena.node id).kind ≠ .query) :
    arena.totalFrom path id = (arena.node id).values := by
  rw [totalFrom, dif_neg hid]
  split
  · next hnode => simp [hnode, Node.kind] at hkind
  · next hnode => rw [hnode]; rfl
  · next hnode => rw [hnode]; rfl

section Acyclic

variable (hmirror : ∀ {n m}, m ∈ (arena.node n).above ↔ n ∈ (arena.node m).below)
  (hacyclic : ∀ n, ¬ OnCycle arena.uppers n)

include hmirror hacyclic

/-- As long as links do not lead back to the path, the path makes no difference. -/
theorem totalFrom_eq_totalFrom {path' : List NodeId}
    (hpath : ∀ p ∈ path, ¬ Reaches arena.uppers p id)
    (hpath' : ∀ p ∈ path', ¬ Reaches arena.uppers p id) :
    arena.totalFrom path id = arena.totalFrom path' id := by
  induction hleft : remaining arena.ids path using Nat.strongRecOn generalizing path path' id with
  | ind left ih =>
    subst hleft
    have hid : id ∉ path := fun hmem => hpath id hmem .refl
    have hid' : id ∉ path' := fun hmem => hpath' id hmem .refl
    by_cases hkind : (arena.node id).kind = .query
    · have hclean : ∀ path : List NodeId, (∀ p ∈ path, ¬ Reaches arena.uppers p id) →
          ∀ lower ∈ (arena.node id).below, ∀ p ∈ id :: path, ¬ Reaches arena.uppers p lower := by
        intro path hpath lower hlower p hp hreaches
        have hstep : id ∈ arena.uppers lower := hmirror.2 hlower
        rcases List.mem_cons.1 hp with rfl | hp
        · exact hacyclic p (.tail' hreaches hstep)
        · exact hpath p hp (hreaches.tail hstep)
      have hlt : remaining arena.ids (id :: path) < remaining arena.ids path :=
        remaining_lt (mem_ids (query_ne_sink hkind)) hid List.mem_cons_self
          fun _ hmem => List.mem_cons_of_mem id hmem
      rw [totalFrom_of_query hid hkind, totalFrom_of_query hid' hkind]
      congr 2
      apply List.flatMap_congr
      intro lower hlower
      rw [ih _ hlt (hclean path hpath lower hlower) (hclean path' hpath' lower hlower) rfl]
    · rw [totalFrom_of_ne_query hid hkind, totalFrom_of_ne_query hid' hkind]

theorem total_of_query (hkind : (arena.node id).kind = .query) :
    arena.total id = .ofList ((arena.node id).values.toList ++
      (arena.node id).below.toList.flatMap fun lower => (arena.total lower).toList) := by
  rw [total, totalFrom_of_query List.not_mem_nil hkind]
  congr 2
  apply List.flatMap_congr
  intro lower hlower
  have hstep : id ∈ arena.uppers lower := hmirror.2 hlower
  have hpath : ∀ p ∈ [id], ¬ Reaches arena.uppers p lower := by
    intro p hp hreaches
    rw [List.mem_singleton.1 hp] at hreaches
    exact hacyclic id (.tail' hreaches hstep)
  rw [total, totalFrom_eq_totalFrom hmirror hacyclic hpath fun p hp => absurd hp List.not_mem_nil]

theorem total_eq_unionAll (hkind : (arena.node id).kind = .query) :
    arena.total id =
      (arena.node id).values.unionAll ((arena.node id).below.toList.map arena.total) := by
  rw [total_of_query hmirror hacyclic hkind, OrderedSet.unionAll_eq_ofList, List.flatMap_map]

theorem mem_total_of_reaches (hflow : Reaches arena.uppers n m) (hvalue : value ∈ arena.total n) :
    value ∈ arena.total m := by
  induction hflow with
  | refl => exact hvalue
  | @tail lower upper _ step ih =>
    have hbelow : lower ∈ (arena.node upper).below := hmirror.1 step
    have hkind : (arena.node upper).kind = .query := by
      by_contra hne
      rw [(arena.node upper).below_eq_empty hne] at hbelow
      exact OrderedSet.not_mem_empty lower hbelow
    rw [total_eq_unionAll hmirror hacyclic hkind, OrderedSet.mem_unionAll]
    exact .inr ⟨arena.total lower, List.mem_map_of_mem hbelow, ih⟩

end Acyclic

theorem total_of_ne_query (hkind : (arena.node id).kind ≠ .query) :
    arena.total id = (arena.node id).values :=
  totalFrom_of_ne_query List.not_mem_nil hkind

/-- A query node has the totals below it in its total, a leaf its own values, and the sink none. -/
theorem total_eq (hmirror : ∀ {n m}, m ∈ (arena.node n).above ↔ n ∈ (arena.node m).below)
    (hacyclic : ∀ n, ¬ OnCycle arena.uppers n) (id : NodeId) : arena.total id =
      match (arena.node id).kind with
      | .query => .ofList ((arena.node id).values.toList ++
          (arena.node id).below.toList.flatMap fun lower => (arena.total lower).toList)
      | .leaf => (arena.node id).values
      | .sink => ∅ := by
  cases hkind : (arena.node id).kind with
  | query => exact total_of_query hmirror hacyclic hkind
  | leaf => exact total_of_ne_query (by simp [hkind])
  | sink => rw [total_of_ne_query (by simp [hkind]), Node.values_eq_empty _ hkind]

/-- Each cache that may be used again is the total of its node. -/
def TotalCaches (arena : Arena K V) (caches : Table NodeId (Cache V)) : Prop :=
  ∀ id cache, caches.find? id = some cache → cache.isFresh = true → cache.values = arena.total id

theorem totalCaches_empty (arena : Arena K V) : arena.TotalCaches ∅ := by
  intro id cache hcache
  cases (Table.find?_empty id).symm.trans hcache

theorem TotalCaches.fresh? {sweep : Sweep V} {values : OrderedSet V}
    (h : arena.TotalCaches sweep.caches) (hfresh : sweep.fresh? n = some values) :
    (∃ cache, sweep.caches.find? n = some cache ∧ cache.values = values) ∧
      values = arena.total n := by
  unfold Sweep.fresh? at hfresh
  cases hcache : sweep.caches.find? n with
  | none => simp [hcache] at hfresh
  | some cache =>
    simp only [hcache] at hfresh
    split at hfresh
    · next hisFresh =>
      rw [Option.some.injEq] at hfresh
      exact ⟨⟨cache, rfl, hfresh⟩, hfresh ▸ h n cache hcache hisFresh⟩
    · cases hfresh

theorem TotalCaches.insert {caches : Table NodeId (Cache V)} {cache : Cache V}
    (h : arena.TotalCaches caches) (hcache : cache.isFresh = true → cache.values = arena.total n) :
    arena.TotalCaches (caches.insert n cache) := by
  intro id other hother hfresh
  rw [Table.find?_insert] at hother
  split at hother
  · next heq =>
    rw [Option.some.injEq] at hother
    subst heq hother
    exact hcache hfresh
  · exact h id other hother hfresh

/-- What was met below the nodes of a list is known. -/
def Covered (arena : Arena K V) (known : List V) (ids : List NodeId) (sweep : Sweep V) : Prop :=
  ∀ p ∈ sweep.seen, ∀ id ∈ ids, Reaches arena.uppers p id → ∀ value ∈ arena.total p, value ∈ known

theorem unionAll_singleton : (∅ : OrderedSet V).unionAll ([id].map arena.total) = arena.total id :=
  OrderedSet.empty_union

/-- What a sweep over the nodes of a list makes of what was found before: up to values that are
known, it adds the totals of the nodes in turn. -/
structure Merges (arena : Arena K V) (known : List V) (ids : List NodeId) (found : Cache V)
    (sweep : Sweep V) (result : Collected V) : Prop where
  caches : arena.TotalCaches result.sweep.caches
  below : ∀ id ∈ result.sweep.seen,
    id ∈ sweep.seen ∨ ∃ top ∈ ids, Reaches arena.uppers id top
  same : OrderedSet.SameBeyond known result.cache.values
    (found.values.unionAll (ids.map arena.total))
  whole : result.cache.isFresh = true →
    found.isFresh = true ∧ result.cache.values = found.values.unionAll (ids.map arena.total)

namespace Merges

variable {found : Cache V} {sweep : Sweep V} {first inner result : Collected V}

theorem total {values : OrderedSet V} (hcaches : arena.TotalCaches sweep.caches)
    (hvalues : values = arena.total id) :
    arena.Merges known [id] ⟨∅, true⟩ sweep ⟨⟨values, true⟩, sweep.meet id⟩ := by
  have hall : values = (∅ : OrderedSet V).unionAll ([id].map arena.total) := by
    rw [hvalues, unionAll_singleton]
  refine ⟨hcaches, ?_, hall ▸ .refl known _, fun _ => ⟨rfl, hall⟩⟩
  intro other hother
  rcases List.mem_cons.1 hother with rfl | hother
  · exact .inr ⟨other, List.mem_singleton.2 rfl, .refl⟩
  · exact .inl hother

theorem nil (hcaches : arena.TotalCaches sweep.caches) :
    arena.Merges known [] found sweep ⟨found, sweep⟩ :=
  ⟨hcaches, fun _ hseen => .inl hseen, .refl known _, fun hfresh => ⟨hfresh, rfl⟩⟩

theorem again (hid : ∀ value ∈ arena.total id, value ∈ known ∨ value ∈ found.values)
    (hrest : arena.Merges known rest ⟨found.values, false⟩ sweep result) :
    arena.Merges known (id :: rest) found sweep result := by
  refine ⟨hrest.caches, ?_, ?_, ?_⟩
  · intro other hother
    refine (hrest.below other hother).imp_right ?_
    rintro ⟨top, htop, hflow⟩
    exact ⟨top, List.mem_cons_of_mem id htop, hflow⟩
  · have hskip := (OrderedSet.SameBeyond.union_of_known hid).unionAll (rest.map arena.total)
    exact hrest.same.trans hskip.symm
  · intro hfresh
    exact absurd (hrest.whole hfresh).1 Bool.false_ne_true

theorem cons (hfirst : arena.Merges (known ++ found.values.toList) [id] ⟨∅, true⟩ sweep first)
    (hrest : arena.Merges known rest
      ⟨found.values ∪ first.cache.values, found.isFresh && first.cache.isFresh⟩ first.sweep result) :
    arena.Merges known (id :: rest) found sweep result := by
  refine ⟨hrest.caches, ?_, ?_, ?_⟩
  · intro other hother
    rcases hrest.below other hother with hseen | ⟨top, htop, hflow⟩
    · rcases hfirst.below other hseen with hseen | ⟨top, htop, hflow⟩
      · exact .inl hseen
      · rw [List.mem_singleton.1 htop] at hflow
        exact .inr ⟨id, List.mem_cons_self, hflow⟩
    · exact .inr ⟨top, List.mem_cons_of_mem id htop, hflow⟩
  · have hsame := hfirst.same
    rw [unionAll_singleton] at hsame
    exact hrest.same.trans (hsame.union_right.unionAll _)
  · intro hisFresh
    obtain ⟨hboth, hvalues⟩ := hrest.whole hisFresh
    obtain ⟨hfound, hisFresh⟩ := Bool.and_eq_true_iff.1 hboth
    have hfirst' := (hfirst.whole hisFresh).2
    rw [unionAll_singleton] at hfirst'
    refine ⟨hfound, ?_⟩
    rw [hvalues, hfirst']
    rfl

end Merges

section Collect

variable {found : Cache V} {sweep : Sweep V} {inner first result : Collected V}

/-- Below a node that has just been met, what was met before is known, and nothing is below the
node and above it. -/
theorem Covered.deep (hmirror : ∀ {n m}, m ∈ (arena.node n).above ↔ n ∈ (arena.node m).below)
    (hacyclic : ∀ n, ¬ OnCycle arena.uppers n) (h : arena.Covered known [id] sweep)
    (values : List V) :
    arena.Covered (known ++ values) (arena.node id).below.toList (sweep.meet id) := by
  intro p hp lower hlower hflow value hvalue
  have hstep : id ∈ arena.uppers lower := hmirror.2 hlower
  rcases List.mem_cons.1 hp with rfl | hp
  · exact absurd (.tail' hflow hstep) (hacyclic p)
  · exact List.mem_append_left _ (h p hp id (List.mem_singleton.2 rfl) (hflow.tail hstep) value hvalue)

theorem Merges.covered (hmirror : ∀ {n m}, m ∈ (arena.node n).above ↔ n ∈ (arena.node m).below)
    (hacyclic : ∀ n, ¬ OnCycle arena.uppers n)
    (hfirst : arena.Merges (known ++ found.values.toList) [id] ⟨∅, true⟩ sweep first)
    (h : arena.Covered (known ++ found.values.toList) (id :: rest) sweep) :
    arena.Covered (known ++ (found.values ∪ first.cache.values).toList) rest first.sweep := by
  have hgrows : ∀ value, value ∈ known ++ found.values.toList ∨ value ∈ first.cache.values →
      value ∈ known ++ (found.values ∪ first.cache.values).toList := by
    intro value hvalue
    simp only [List.mem_append, ← OrderedSet.mem_def, OrderedSet.mem_union] at hvalue ⊢
    tauto
  intro p hp other hother hflow value hvalue
  apply hgrows
  rcases hfirst.below p hp with hseen | ⟨top, htop, hbelow⟩
  · exact .inl (h p hseen other (List.mem_cons_of_mem id hother) hflow value hvalue)
  · rw [List.mem_singleton.1 htop] at hbelow
    have htotal := mem_total_of_reaches hmirror hacyclic hbelow hvalue
    by_cases hknown : value ∈ known ++ found.values.toList
    · exact .inl hknown
    · exact .inr ((hfirst.same.mem_iff hknown).2 (OrderedSet.mem_unionAll.2 (.inr ⟨_, by simp, htotal⟩)))

theorem merges_collect (hmirror : ∀ {n m}, m ∈ (arena.node n).above ↔ n ∈ (arena.node m).below)
    (hacyclic : ∀ n, ¬ OnCycle arena.uppers n) (known : List V) (ids : List NodeId)
    (found : Cache V) (sweep : Sweep V) (hcaches : arena.TotalCaches sweep.caches)
    (hcovered : arena.Covered (known ++ found.values.toList) ids sweep) :
    arena.Merges known ids found sweep (arena.collect ids found sweep) := by
  refine sweep_induction arena
    (fun id sweep first => ∀ known, arena.TotalCaches sweep.caches →
      arena.Covered known [id] sweep → arena.Merges known [id] ⟨∅, true⟩ sweep first)
    (fun ids found sweep result => ∀ known, arena.TotalCaches sweep.caches →
      arena.Covered (known ++ found.values.toList) ids sweep →
        arena.Merges known ids found sweep result)
    ?known ?flat ?deep ?nil ?again ?cons ids found sweep known hcaches hcovered
  case known =>
    intro id sweep values _ _ hfresh known hcaches _
    exact .total hcaches (hcaches.fresh? hfresh).2
  case flat =>
    intro id sweep _ hkind known hcaches _
    exact .total hcaches (total_of_ne_query hkind).symm
  case deep =>
    intro id sweep inner _ hkind _ hinner known hcaches hcovered
    obtain ⟨hafter, hbelow, hsame, hwhole⟩ := hinner known hcaches
      (hcovered.deep hmirror hacyclic (arena.node id).values.toList)
    rw [← total_eq_unionAll hmirror hacyclic hkind] at hsame hwhole
    refine ⟨hafter.insert fun hfresh => (hwhole hfresh).2, ?_, ?_, ?_⟩
    · intro other hother
      rcases hbelow other hother with hseen | ⟨lower, hlower, hflow⟩
      · rcases List.mem_cons.1 hseen with rfl | hseen
        · exact .inr ⟨other, List.mem_singleton.2 rfl, .refl⟩
        · exact .inl hseen
      · exact .inr ⟨id, List.mem_singleton.2 rfl, hflow.tail (hmirror.2 hlower)⟩
    · rw [unionAll_singleton]
      exact hsame
    · intro hfresh
      rw [unionAll_singleton]
      exact ⟨rfl, (hwhole hfresh).2⟩
  case nil =>
    intro found sweep known hcaches _
    exact .nil hcaches
  case again =>
    intro id rest found sweep result hid hrest known hcaches hcovered
    refine .again ?_ (hrest known hcaches ?_)
    · intro value hvalue
      exact List.mem_append.1 (hcovered id hid id List.mem_cons_self .refl value hvalue)
    · intro p hp other hother
      exact hcovered p hp other (List.mem_cons_of_mem id hother)
  case cons =>
    intro id rest found sweep first result _ hfirst hrest known hcaches hcovered
    have hone : arena.Covered (known ++ found.values.toList) [id] sweep := by
      intro p hp other hother
      exact hcovered p hp other (List.mem_singleton.1 hother ▸ List.mem_cons_self)
    have hmerged := hfirst _ hcaches hone
    exact .cons hmerged (hrest known hmerged.caches (hmerged.covered hmirror hacyclic hcovered))

/-- A sweep from a query node stores the total of that node with it. -/
theorem aggregate_total (hmirror : ∀ {n m}, m ∈ (arena.node n).above ↔ n ∈ (arena.node m).below)
    (hacyclic : ∀ n, ¬ OnCycle arena.uppers n) {caches : Table NodeId (Cache V)}
    (hcaches : arena.TotalCaches caches) (hkind : (arena.node n).kind = .query) :
    arena.TotalCaches (arena.aggregate n (.start caches)).caches ∧
      ∃ cache, (arena.aggregate n (.start caches)).caches.find? n = some cache ∧
        cache.values = arena.total n := by
  cases hfresh : (Sweep.start caches).fresh? n with
  | some values =>
    have hstart : arena.TotalCaches (Sweep.start caches).caches := hcaches
    obtain ⟨⟨cache, hcache, rfl⟩, hvalues⟩ := hstart.fresh? hfresh
    rw [aggregate_of_fresh hfresh]
    exact ⟨hcaches, cache, hcache, hvalues⟩
  | none =>
    rw [aggregate_of_stale hkind hfresh]
    have hmerged := merges_collect hmirror hacyclic [] (arena.node n).below.toList
      ⟨(arena.node n).values, true⟩ (.start caches) hcaches fun p hp => absurd hp List.not_mem_nil
    generalize arena.collect (arena.node n).below.toList ⟨(arena.node n).values, true⟩
      (.start caches) = inner at hmerged ⊢
    have hvalues : inner.cache.values = arena.total n := by
      rw [total_eq_unionAll hmirror hacyclic hkind]
      exact hmerged.same.eq
    refine ⟨hmerged.caches.insert fun _ => hvalues, inner.cache, ?_, hvalues⟩
    simp only [Sweep.store, Table.find?_insert, if_true]

/-- A sweep over the nodes of a list stores nothing but at query nodes at or below them. -/
def Touches (arena : Arena K V) (ids : List NodeId) (sweep after : Sweep V) : Prop :=
  ∀ n, after.caches.find? n = sweep.caches.find? n ∨
    (arena.node n).kind = .query ∧ ∃ top ∈ ids, Reaches arena.uppers n top

omit [DecidableEq V] in
theorem Touches.deep {inner : Sweep V} {cache : Cache V}
    (hmirror : ∀ {n m}, m ∈ (arena.node n).above ↔ n ∈ (arena.node m).below)
    (hkind : (arena.node id).kind = .query)
    (h : arena.Touches (arena.node id).below.toList sweep inner) :
    arena.Touches [id] sweep (inner.store id cache) := by
  intro n
  by_cases hn : n = id
  · subst hn
    exact .inr ⟨hkind, n, List.mem_singleton.2 rfl, .refl⟩
  · rw [Sweep.store, Table.find?_insert, if_neg hn]
    refine (h n).imp_right ?_
    rintro ⟨hquery, lower, hlower, hflow⟩
    exact ⟨hquery, id, List.mem_singleton.2 rfl, hflow.tail (hmirror.2 hlower)⟩

theorem touches_collect (hmirror : ∀ {n m}, m ∈ (arena.node n).above ↔ n ∈ (arena.node m).below)
    (ids : List NodeId) (found : Cache V) (sweep : Sweep V) :
    arena.Touches ids sweep (arena.collect ids found sweep).sweep := by
  refine sweep_induction arena (fun id sweep first => arena.Touches [id] sweep first.sweep)
    (fun ids _ sweep result => arena.Touches ids sweep result.sweep)
    ?known ?flat ?deep ?nil ?again ?cons ids found sweep
  case known => exact fun id sweep values _ _ _ n => .inl rfl
  case flat => exact fun id sweep _ _ n => .inl rfl
  case deep =>
    intro id sweep inner _ hkind _ hinner
    exact .deep hmirror hkind hinner
  case nil => exact fun found sweep n => .inl rfl
  case again =>
    intro id rest found sweep result _ hrest n
    refine (hrest n).imp_right ?_
    rintro ⟨hquery, top, htop, hflow⟩
    exact ⟨hquery, top, List.mem_cons_of_mem id htop, hflow⟩
  case cons =>
    intro id rest found sweep first result _ hfirst hrest n
    rcases hrest n with hsame | ⟨hquery, top, htop, hflow⟩
    · rcases hfirst n with hsame' | ⟨hquery, top, htop, hflow⟩
      · exact .inl (hsame.trans hsame')
      · rw [List.mem_singleton.1 htop] at hflow
        exact .inr ⟨hquery, id, List.mem_cons_self, hflow⟩
    · exact .inr ⟨hquery, top, List.mem_cons_of_mem id htop, hflow⟩

theorem touches_aggregate (hmirror : ∀ {n m}, m ∈ (arena.node n).above ↔ n ∈ (arena.node m).below)
    (id : NodeId) (sweep : Sweep V) : arena.Touches [id] sweep (arena.aggregate id sweep) := by
  rcases arena.aggregate_cases id sweep with hsame | ⟨hkind, _, hstore⟩
  · rw [hsame]
    exact fun n => .inl rfl
  · rw [hstore]
    exact .deep hmirror hkind (touches_collect hmirror _ _ sweep)

end Collect

end Arena

end Downset

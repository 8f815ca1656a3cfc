import Downset.Proofs.Arena.Consistent
import Downset.Proofs.Arena.Sweep

/-!
# What a sweep collects

The combined value of a node holds whatever flows to it along links. A cache that may be used
again holds all of it. A sweep leaves out the nodes that it met before, so what it collects at
a node may be less, but what is missing comes by way of a node met before. At the start nothing
was met, and since the links are free of cycles the first node is not met again: there nothing
is missing.
-/

namespace Downset.Arena

variable {K V : Type} {arena : Arena K V} {n m : NodeId} {value : V}

/-- The value is held by the node or by one whose values flow to it. -/
def Combined (arena : Arena K V) (id : NodeId) (value : V) : Prop :=
  ∃ n, Reaches arena.uppers n id ∧ value ∈ (arena.node n).values

/-- Each cache that may be used again is the whole combined value of its node. -/
def ExactCaches (arena : Arena K V) (caches : Table NodeId (Cache V)) : Prop :=
  ∀ id cache, caches.find? id = some cache → cache.isFresh = true →
    ∀ value, value ∈ cache.values ↔ arena.Combined id value

theorem exactCaches_empty (arena : Arena K V) : arena.ExactCaches ∅ := by
  intro id cache hcache
  cases (Table.find?_empty id).symm.trans hcache

theorem ExactCaches.fresh? (sweep : Sweep V) {values : OrderedSet V}
    (h : arena.ExactCaches sweep.caches) (hfresh : sweep.fresh? n = some values) :
    ∃ cache, sweep.caches.find? n = some cache ∧ cache.values = values ∧
      ∀ value, value ∈ values ↔ arena.Combined n value := by
  unfold Sweep.fresh? at hfresh
  cases hcache : sweep.caches.find? n with
  | none => simp [hcache] at hfresh
  | some cache =>
    simp only [hcache] at hfresh
    split at hfresh
    · next hisFresh =>
      rw [Option.some.injEq] at hfresh
      exact ⟨cache, rfl, hfresh, hfresh ▸ h n cache hcache hisFresh⟩
    · cases hfresh

theorem ExactCaches.insert {caches : Table NodeId (Cache V)} {cache : Cache V}
    (h : arena.ExactCaches caches)
    (hcache : cache.isFresh = true → ∀ value, value ∈ cache.values ↔ arena.Combined n value) :
    arena.ExactCaches (caches.insert n cache) := by
  intro id other hother hfresh
  rw [Table.find?_insert] at hother
  split at hother
  · next heq =>
    rw [Option.some.injEq] at hother
    subst heq hother
    exact hcache hfresh
  · exact h id other hother hfresh

theorem combined_of_mem (h : value ∈ (arena.node n).values) : arena.Combined n value :=
  ⟨n, .refl, h⟩

theorem Combined.mono (h : arena.Combined n value) (hnm : Reaches arena.uppers n m) :
    arena.Combined m value := by
  obtain ⟨source, hsource, hvalue⟩ := h
  exact ⟨source, hsource.trans hnm, hvalue⟩

/-- What a sweep over the nodes of a list makes of what was found before. Whatever flows to a
node that is met by then is collected, or comes by way of a node met before the sweep. -/
structure Collects (arena : Arena K V) (ids : List NodeId) (found : Cache V) (sweep : Sweep V)
    (result : Collected V) : Prop where
  exact : arena.ExactCaches result.sweep.caches
  meets : ∀ id, id ∈ ids ∨ id ∈ sweep.seen → id ∈ result.sweep.seen
  grows : ∀ value ∈ found.values, value ∈ result.cache.values
  sound : ∀ value ∈ result.cache.values,
    value ∈ found.values ∨ ∃ id ∈ ids, arena.Combined id value
  fresh : result.cache.isFresh = true → found.isFresh = true ∧
    ∀ id ∈ ids, ∀ value, arena.Combined id value → value ∈ result.cache.values
  covers : ∀ top ∈ result.sweep.seen, ∀ n, Reaches arena.uppers n top →
    (∀ value ∈ (arena.node n).values, value ∈ result.cache.values) ∨
      ∃ middle ∈ sweep.seen, Reaches arena.uppers n middle ∧ Reaches arena.uppers middle top

namespace Collects

variable {id : NodeId} {ids rest : List NodeId} {found : Cache V} {sweep : Sweep V}
  {first inner result : Collected V}

theorem whole {values : OrderedSet V} (hexact : arena.ExactCaches sweep.caches)
    (hvalues : ∀ value, value ∈ values ↔ arena.Combined id value) :
    arena.Collects [id] ⟨∅, true⟩ sweep ⟨⟨values, true⟩, sweep.meet id⟩ := by
  refine ⟨hexact, ?_, ?_, ?_, ?_, ?_⟩
  · intro other hother
    rw [List.mem_singleton] at hother
    exact List.mem_cons.2 hother
  · intro value hvalue
    exact absurd hvalue (OrderedSet.not_mem_empty value)
  · intro value hvalue
    exact .inr ⟨id, List.mem_singleton.2 rfl, (hvalues value).1 hvalue⟩
  · intro _
    refine ⟨rfl, ?_⟩
    intro other hother value hcombined
    rw [List.mem_singleton.1 hother] at hcombined
    exact (hvalues value).2 hcombined
  · intro top htop n hflow
    rcases List.mem_cons.1 htop with rfl | htop
    · exact .inl fun value hvalue => (hvalues value).2 ⟨n, hflow, hvalue⟩
    · exact .inr ⟨top, htop, hflow, .refl⟩

theorem nil (hexact : arena.ExactCaches sweep.caches) :
    arena.Collects [] found sweep ⟨found, sweep⟩ := by
  refine ⟨hexact, ?_, fun _ hvalue => hvalue, fun _ hvalue => .inl hvalue, ?_, ?_⟩
  · intro id hid
    exact hid.resolve_left List.not_mem_nil
  · intro hfresh
    exact ⟨hfresh, fun id hid => absurd hid List.not_mem_nil⟩
  · intro top htop n hflow
    exact .inr ⟨top, htop, hflow, .refl⟩

theorem again (hid : id ∈ sweep.seen)
    (hrest : arena.Collects rest ⟨found.values, false⟩ sweep result) :
    arena.Collects (id :: rest) found sweep result := by
  refine ⟨hrest.exact, ?_, hrest.grows, ?_, ?_, hrest.covers⟩
  · intro other hother
    rcases hother with hother | hother
    · rcases List.mem_cons.1 hother with rfl | hother
      · exact hrest.meets other (.inr hid)
      · exact hrest.meets other (.inl hother)
    · exact hrest.meets other (.inr hother)
  · intro value hvalue
    refine (hrest.sound value hvalue).imp_right ?_
    rintro ⟨other, hother, hcombined⟩
    exact ⟨other, List.mem_cons_of_mem id hother, hcombined⟩
  · intro hfresh
    exact absurd (hrest.fresh hfresh).1 Bool.false_ne_true

theorem cons [DecidableEq V] (hfirst : arena.Collects [id] ⟨∅, true⟩ sweep first)
    (hrest : arena.Collects rest
      ⟨found.values ∪ first.cache.values, found.isFresh && first.cache.isFresh⟩ first.sweep result) :
    arena.Collects (id :: rest) found sweep result := by
  have hgrows : ∀ value ∈ first.cache.values, value ∈ result.cache.values := by
    intro value hvalue
    exact hrest.grows value (OrderedSet.mem_union.2 (.inr hvalue))
  refine ⟨hrest.exact, ?_, ?_, ?_, ?_, ?_⟩
  · intro other hother
    rcases hother with hother | hother
    · rcases List.mem_cons.1 hother with rfl | hother
      · exact hrest.meets other (.inr (hfirst.meets other (.inl List.mem_cons_self)))
      · exact hrest.meets other (.inl hother)
    · exact hrest.meets other (.inr (hfirst.meets other (.inr hother)))
  · intro value hvalue
    exact hrest.grows value (OrderedSet.mem_union.2 (.inl hvalue))
  · intro value hvalue
    rcases hrest.sound value hvalue with hvalue | ⟨other, hother, hcombined⟩
    · rcases OrderedSet.mem_union.1 hvalue with hvalue | hvalue
      · exact .inl hvalue
      · obtain ⟨other, hother, hcombined⟩ :=
          (hfirst.sound value hvalue).resolve_left (OrderedSet.not_mem_empty value)
        rw [List.mem_singleton.1 hother] at hcombined
        exact .inr ⟨id, List.mem_cons_self, hcombined⟩
    · exact .inr ⟨other, List.mem_cons_of_mem id hother, hcombined⟩
  · intro hisFresh
    obtain ⟨hfound, hall⟩ := hrest.fresh hisFresh
    obtain ⟨hfound, hisFresh⟩ := Bool.and_eq_true_iff.1 hfound
    refine ⟨hfound, ?_⟩
    intro other hother value hcombined
    rcases List.mem_cons.1 hother with rfl | hother
    · exact hgrows value ((hfirst.fresh hisFresh).2 other List.mem_cons_self value hcombined)
    · exact hall other hother value hcombined
  · intro top htop n hflow
    rcases hrest.covers top htop n hflow with hall | ⟨middle, hmiddle, hlow, hhigh⟩
    · exact .inl hall
    · rcases hfirst.covers middle hmiddle n hlow with hall | ⟨other, hother, hn, hmiddle⟩
      · exact .inl fun value hvalue => hgrows value (hall value hvalue)
      · exact .inr ⟨other, hother, hn, hmiddle.trans hhigh⟩

end Collects

variable [DecidableEq K] {filter : KeyFilter K}

theorem WellFormed.combined_iff (h : arena.WellFormed filter) :
    arena.Combined n value ↔
      value ∈ (arena.node n).values ∨ ∃ m ∈ (arena.node n).below, arena.Combined m value := by
  constructor
  · rintro ⟨source, hsource, hvalue⟩
    rcases hsource.cases_tail with rfl | ⟨m, hm, hlast⟩
    · exact .inl hvalue
    · exact .inr ⟨m, h.mirror.1 hlast, source, hm, hvalue⟩
  · rintro (hvalue | ⟨m, hm, hcombined⟩)
    · exact combined_of_mem hvalue
    · exact hcombined.mono (.single (h.mirror.2 hm))

theorem WellFormed.eq_of_flow (h : arena.WellFormed filter) (hkind : (arena.node m).kind ≠ .query)
    (hflow : Reaches arena.uppers n m) : n = m := by
  rcases hflow.cases_tail with heq | ⟨middle, _, hlast⟩
  · exact heq.symm
  · exact absurd (h.kind_above hlast) hkind

theorem Collects.deep {id : NodeId} {sweep : Sweep V} {inner : Collected V}
    (h : arena.WellFormed filter) (hacyclic : ∀ n, ¬ OnCycle arena.uppers n)
    (hinner : arena.Collects (arena.node id).below.toList ⟨(arena.node id).values, true⟩
      (sweep.meet id) inner) :
    arena.Collects [id] ⟨∅, true⟩ sweep ⟨inner.cache, inner.sweep.store id inner.cache⟩ := by
  have hsound : ∀ value ∈ inner.cache.values, arena.Combined id value := by
    intro value hvalue
    exact h.combined_iff.2 (hinner.sound value hvalue)
  have hfresh : inner.cache.isFresh = true → ∀ value, arena.Combined id value →
      value ∈ inner.cache.values := by
    intro hisFresh value hcombined
    rcases h.combined_iff.1 hcombined with hvalue | ⟨m, hm, hbelow⟩
    · exact hinner.grows value hvalue
    · exact (hinner.fresh hisFresh).2 m hm value hbelow
  -- what flows to the node itself cannot come by way of it, for links have no cycle
  have hid : ∀ n, Reaches arena.uppers n id →
      (∀ value ∈ (arena.node n).values, value ∈ inner.cache.values) ∨
        ∃ middle ∈ sweep.seen, Reaches arena.uppers n middle ∧ Reaches arena.uppers middle id := by
    intro n hflow
    rcases hflow.cases_tail with rfl | ⟨m, hm, hlast⟩
    · exact .inl hinner.grows
    · have hmeet := hinner.meets m (.inl (h.mirror.1 hlast))
      rcases hinner.covers m hmeet n hm with hall | ⟨middle, hmiddle, hlow, hhigh⟩
      · exact .inl hall
      · rcases List.mem_cons.1 hmiddle with rfl | hmiddle
        · exact absurd (.tail' hhigh hlast) (hacyclic middle)
        · exact .inr ⟨middle, hmiddle, hlow, hhigh.tail hlast⟩
  refine ⟨hinner.exact.insert fun hisFresh value => ⟨hsound value, hfresh hisFresh value⟩,
    ?_, ?_, ?_, ?_, ?_⟩
  · intro other hother
    rw [List.mem_singleton] at hother
    exact hinner.meets other (.inr (List.mem_cons.2 hother))
  · intro value hvalue
    exact absurd hvalue (OrderedSet.not_mem_empty value)
  · intro value hvalue
    exact .inr ⟨id, List.mem_singleton.2 rfl, hsound value hvalue⟩
  · intro hisFresh
    refine ⟨rfl, ?_⟩
    intro other hother value hcombined
    rw [List.mem_singleton.1 hother] at hcombined
    exact hfresh hisFresh value hcombined
  · intro top htop n hflow
    rcases hinner.covers top htop n hflow with hall | ⟨middle, hmiddle, hlow, hhigh⟩
    · exact .inl hall
    · rcases List.mem_cons.1 hmiddle with rfl | hmiddle
      · refine (hid n hlow).imp_right ?_
        rintro ⟨other, hother, hn, hmiddle⟩
        exact ⟨other, hother, hn, hmiddle.trans hhigh⟩
      · exact .inr ⟨middle, hmiddle, hlow, hhigh⟩

variable [DecidableEq V]

theorem collects_collect (h : arena.WellFormed filter) (hacyclic : ∀ n, ¬ OnCycle arena.uppers n)
    (ids : List NodeId) (found : Cache V) (sweep : Sweep V)
    (hexact : arena.ExactCaches sweep.caches) :
    arena.Collects ids found sweep (arena.collect ids found sweep) := by
  refine sweep_induction arena
    (fun id sweep first => arena.ExactCaches sweep.caches →
      arena.Collects [id] ⟨∅, true⟩ sweep first)
    (fun ids found sweep result => arena.ExactCaches sweep.caches →
      arena.Collects ids found sweep result)
    ?known ?flat ?deep ?nil ?again ?cons ids found sweep hexact
  case known =>
    intro id sweep values _ _ hfresh hexact
    obtain ⟨_, _, _, hvalues⟩ := hexact.fresh? sweep hfresh
    exact .whole hexact hvalues
  case flat =>
    intro id sweep _ hkind hexact
    refine .whole hexact fun value => ⟨combined_of_mem, ?_⟩
    rintro ⟨n, hflow, hvalue⟩
    exact h.eq_of_flow hkind hflow ▸ hvalue
  case deep =>
    intro id sweep inner _ _ _ hinner hexact
    exact .deep h hacyclic (hinner hexact)
  case nil =>
    intro found sweep hexact
    exact .nil hexact
  case again =>
    intro id rest found sweep result hid hrest hexact
    exact .again hid (hrest hexact)
  case cons =>
    intro id rest found sweep first result _ hfirst hrest hexact
    exact .cons (hfirst hexact) (hrest (hfirst hexact).exact)

/-- A sweep from a query node stores the whole combined value of that node with it. -/
theorem aggregate_exact (h : arena.WellFormed filter) (hacyclic : ∀ n, ¬ OnCycle arena.uppers n)
    {caches : Table NodeId (Cache V)} (hexact : arena.ExactCaches caches)
    (hkind : (arena.node n).kind = .query) :
    arena.ExactCaches (arena.aggregate n (.start caches)).caches ∧
      ∃ cache, (arena.aggregate n (.start caches)).caches.find? n = some cache ∧
        ∀ value, value ∈ cache.values ↔ arena.Combined n value := by
  cases hfresh : (Sweep.start caches).fresh? n with
  | some values =>
    obtain ⟨cache, hcache, rfl, hvalues⟩ :=
      ExactCaches.fresh? (.start caches) hexact hfresh
    rw [aggregate_of_fresh hfresh]
    exact ⟨hexact, cache, hcache, hvalues⟩
  | none =>
    rw [aggregate_of_stale hkind hfresh]
    have hinner := collects_collect h hacyclic (arena.node n).below.toList
      ⟨(arena.node n).values, true⟩ (.start caches) hexact
    generalize arena.collect (arena.node n).below.toList ⟨(arena.node n).values, true⟩
      (.start caches) = inner at hinner ⊢
    have hvalues : ∀ value, value ∈ inner.cache.values ↔ arena.Combined n value := by
      intro value
      rw [h.combined_iff]
      refine ⟨hinner.sound value, ?_⟩
      rintro (hvalue | ⟨m, hm, source, hflow, hvalue⟩)
      · exact hinner.grows value hvalue
      · rcases hinner.covers m (hinner.meets m (.inl hm)) source hflow with hall | hmet
        · exact hall value hvalue
        · obtain ⟨_, hmiddle, _⟩ := hmet
          exact absurd hmiddle List.not_mem_nil
    refine ⟨hinner.exact.insert fun _ => hvalues, inner.cache, ?_, hvalues⟩
    simp only [Sweep.store, Table.find?_insert, if_true]

end Downset.Arena

import Downset.Proofs.Arena.SingleWays
import Downset.Proofs.Arena.Visits

/-!
# Sweeps without caches

Where nothing that was stored before may be used again, a sweep goes all the way down. It meets
every node below those of its list, and stores something at each query node that it meets. What it
collects is fresh if and only if all these nodes are met for the first time and by single ways.
-/

namespace Downset

variable {K V : Type}

/-- Nothing may be used again but what this sweep stored at nodes that it met. -/
def Sweep.Blank (sweep : Sweep V) : Prop := ∀ id, sweep.fresh? id ≠ none → id ∈ sweep.seen

theorem Sweep.Blank.meet {sweep : Sweep V} {id : NodeId} (h : sweep.Blank) :
    (sweep.meet id).Blank :=
  fun other hother => List.mem_cons_of_mem id (h other hother)

theorem Sweep.Blank.store {sweep : Sweep V} {id : NodeId} {cache : Cache V} (h : sweep.Blank)
    (hid : id ∈ sweep.seen) : (sweep.store id cache).Blank := by
  intro other hother
  by_cases heq : other = id
  · exact heq ▸ hid
  · refine h other fun hnone => hother ?_
    unfold Sweep.fresh? at hnone ⊢
    simpa [Sweep.store, Table.find?_insert, heq] using hnone

namespace Arena

variable {arena : Arena K V} {id n top : NodeId} {ids rest : List NodeId} {found : Cache V}
  {sweep : Sweep V} {first inner result : Collected V}

/-- A sweep over the nodes of a list meets all nodes below them, and stores something at the query
nodes among them, but for what was met before. -/
structure Exhausts (arena : Arena K V) (ids : List NodeId) (found : Cache V) (sweep : Sweep V)
    (result : Collected V) : Prop extends arena.Visits ids sweep result.sweep where
  blank : result.sweep.Blank
  meets : ∀ id ∈ ids, id ∈ result.sweep.seen
  closed : ∀ top ∈ result.sweep.seen, top ∈ sweep.seen ∨
    ∀ lower ∈ (arena.node top).below, lower ∈ result.sweep.seen
  stores : ∀ top ∈ result.sweep.seen, (arena.node top).kind = .query →
    top ∈ sweep.seen ∨ top ∈ result.sweep.stored
  logged : ∀ top ∈ sweep.stored, top ∈ result.sweep.stored
  query : ∀ top ∈ result.sweep.stored, top ∈ sweep.stored ∨ (arena.node top).kind = .query
  fresh : result.cache.isFresh = true ↔ found.isFresh = true ∧ arena.Clear sweep.seen ids

namespace Exhausts

theorem mem_seen (h : arena.Exhausts ids found sweep result)
    (hmirror : ∀ {n m}, m ∈ (arena.node n).above ↔ n ∈ (arena.node m).below)
    (htop : top ∈ result.sweep.seen) (hunseen : ∀ m, Reaches arena.uppers m top → m ∉ sweep.seen)
    (hn : Reaches arena.uppers n top) : n ∈ result.sweep.seen := by
  induction hn using Relation.ReflTransGen.head_induction_on with
  | refl => exact htop
  | head step rest ih =>
    have hlowers := (h.closed _ ih).resolve_left (hunseen _ rest)
    exact hlowers _ (hmirror.1 step)

theorem flat (hmirror : ∀ {n m}, m ∈ (arena.node n).above ↔ n ∈ (arena.node m).below)
    (hacyclic : ∀ n, ¬ OnCycle arena.uppers n) (htidy : sweep.Tidy) (hblank : sweep.Blank)
    (hid : id ∉ sweep.seen) (hkind : (arena.node id).kind ≠ .query) :
    arena.Exhausts [id] ⟨∅, true⟩ sweep ⟨⟨(arena.node id).values, true⟩, sweep.meet id⟩ := by
  have hbelow := (arena.node id).below_eq_empty hkind
  refine ⟨.meet htidy, hblank.meet, ?_, ?_, ?_, fun _ htop => htop, fun _ htop => .inl htop, ?_⟩
  · exact fun other hother => List.mem_singleton.1 hother ▸ List.mem_cons_self
  · intro top htop
    rcases List.mem_cons.1 htop with rfl | htop
    · rw [hbelow]
      exact .inr fun lower hlower => absurd hlower (OrderedSet.not_mem_empty lower)
    · exact .inl htop
  · intro top htop hquery
    rcases List.mem_cons.1 htop with rfl | htop
    · exact absurd hquery hkind
    · exact .inl htop
  · have hclear := (clear_below_iff hmirror hacyclic hid).1 (hbelow ▸ Clear.nil)
    exact iff_of_true rfl ⟨rfl, hclear⟩

theorem deep (hmirror : ∀ {n m}, m ∈ (arena.node n).above ↔ n ∈ (arena.node m).below)
    (hacyclic : ∀ n, ¬ OnCycle arena.uppers n) (htidy : sweep.Tidy) (hid : id ∉ sweep.seen)
    (hkind : (arena.node id).kind = .query)
    (hinner : arena.Exhausts (arena.node id).below.toList ⟨(arena.node id).values, true⟩
      (sweep.meet id) inner) :
    arena.Exhausts [id] ⟨∅, true⟩ sweep ⟨inner.cache, inner.sweep.store id inner.cache⟩ := by
  have hmet : id ∈ inner.sweep.seen := hinner.kept id List.mem_cons_self
  refine ⟨.deep hmirror htidy hid hinner.toVisits, hinner.blank.store hmet, ?_, ?_, ?_, ?_, ?_, ?_⟩
  · exact fun other hother => List.mem_singleton.1 hother ▸ hmet
  · intro top htop
    rcases hinner.closed top htop with hseen | hlowers
    · rcases List.mem_cons.1 hseen with rfl | hseen
      · exact .inr hinner.meets
      · exact .inl hseen
    · exact .inr hlowers
  · intro top htop hquery
    rcases hinner.stores top htop hquery with hseen | hstored
    · rcases List.mem_cons.1 hseen with rfl | hseen
      · exact .inr List.mem_cons_self
      · exact .inl hseen
    · exact .inr (List.mem_cons_of_mem id hstored)
  · exact fun top htop => List.mem_cons_of_mem id (hinner.logged top htop)
  · intro top htop
    rcases List.mem_cons.1 htop with rfl | htop
    · exact .inr hkind
    · exact hinner.query top htop
  · rw [hinner.fresh]
    exact and_congr_right fun _ => clear_below_iff hmirror hacyclic hid

theorem nil (htidy : sweep.Tidy) (hblank : sweep.Blank) :
    arena.Exhausts [] found sweep ⟨found, sweep⟩ where
  toVisits := .nil htidy
  blank := hblank
  meets := by simp
  closed top htop := .inl htop
  stores top htop _ := .inl htop
  logged _ htop := htop
  query top htop := .inl htop
  fresh := (and_iff_left Clear.nil).symm

theorem again (hid : id ∈ sweep.seen)
    (hrest : arena.Exhausts rest ⟨found.values, false⟩ sweep result) :
    arena.Exhausts (id :: rest) found sweep result where
  toVisits := hrest.toVisits.again
  blank := hrest.blank
  meets := List.forall_mem_cons.2 ⟨hrest.kept id hid, hrest.meets⟩
  closed := hrest.closed
  stores := hrest.stores
  logged := hrest.logged
  query := hrest.query
  fresh := by
    refine iff_of_false (fun hfresh => Bool.false_ne_true (hrest.fresh.1 hfresh).1) ?_
    rintro ⟨_, hclear⟩
    exact hclear.unseen id List.mem_cons_self id .refl hid

/-- What is met at a node that is clear is all that lies below it. -/
theorem clear_iff (hmirror : ∀ {n m}, m ∈ (arena.node n).above ↔ n ∈ (arena.node m).below)
    (hfirst : arena.Exhausts [id] found sweep first) (hclear : arena.Clear sweep.seen [id]) :
    arena.Clear first.sweep.seen rest ↔
      arena.Clear sweep.seen rest ∧ ∀ other ∈ rest, arena.Apart id other := by
  constructor
  · rintro ⟨hunseen, hsingle, happart⟩
    refine ⟨⟨?_, hsingle, happart⟩, ?_⟩
    · exact fun other hother m hm hseen => hunseen other hother m hm (hfirst.kept m hseen)
    · intro other hother lower hid hlower
      have hseen := hfirst.mem_seen hmirror (hfirst.meets id List.mem_cons_self)
        (clear_singleton.1 hclear).1 hid
      exact hunseen other hother lower hlower hseen
  · rintro ⟨⟨hunseen, hsingle, happart⟩, hapart⟩
    refine ⟨fun other hother m hm hseen => ?_, hsingle, happart⟩
    rcases hfirst.below m hseen with hbefore | ⟨top, htop, hid⟩
    · exact hunseen other hother m hm hbefore
    · exact hapart other hother m (List.mem_singleton.1 htop ▸ hid) hm

theorem cons [DecidableEq V]
    (hmirror : ∀ {n m}, m ∈ (arena.node n).above ↔ n ∈ (arena.node m).below)
    (hfirst : arena.Exhausts [id] ⟨∅, true⟩ sweep first)
    (hrest : arena.Exhausts rest ⟨found.values ∪ first.cache.values,
      found.isFresh && first.cache.isFresh⟩ first.sweep result) :
    arena.Exhausts (id :: rest) found sweep result where
  toVisits := hfirst.toVisits.cons hrest.toVisits
  blank := hrest.blank
  meets := List.forall_mem_cons.2 ⟨hrest.kept id (hfirst.meets id List.mem_cons_self), hrest.meets⟩
  closed top htop := by
    rcases hrest.closed top htop with htop | hlowers
    · refine (hfirst.closed top htop).imp_right fun hlowers lower hlower => ?_
      exact hrest.kept lower (hlowers lower hlower)
    · exact .inr hlowers
  stores top htop hkind := by
    rcases hrest.stores top htop hkind with htop | hstored
    · exact (hfirst.stores top htop hkind).imp_right fun hstored => hrest.logged top hstored
    · exact .inr hstored
  logged top htop := hrest.logged top (hfirst.logged top htop)
  query top htop := by
    rcases hrest.query top htop with htop | hkind
    · exact hfirst.query top htop
    · exact .inr hkind
  fresh := by
    have hcons : arena.Clear sweep.seen (id :: rest) ↔ _ := clear_cons
    rw [hrest.fresh, Bool.and_eq_true, hfirst.fresh, hcons, and_assoc]
    refine and_congr_right fun _ => ?_
    rw [and_iff_right rfl]
    exact and_congr_right fun hclear => hfirst.clear_iff hmirror hclear

end Exhausts

variable [DecidableEq V]
  (hmirror : ∀ {n m}, m ∈ (arena.node n).above ↔ n ∈ (arena.node m).below)
  (hacyclic : ∀ n, ¬ OnCycle arena.uppers n)

include hmirror hacyclic

theorem exhausts_collect (ids : List NodeId) (found : Cache V) (sweep : Sweep V)
    (htidy : sweep.Tidy) (hblank : sweep.Blank) :
    arena.Exhausts ids found sweep (arena.collect ids found sweep) := by
  refine sweep_induction arena
    (fun id sweep first => sweep.Tidy → sweep.Blank → arena.Exhausts [id] ⟨∅, true⟩ sweep first)
    (fun ids found sweep result =>
      sweep.Tidy → sweep.Blank → arena.Exhausts ids found sweep result)
    ?known ?flat ?deep ?nil ?again ?cons ids found sweep htidy hblank
  case known =>
    intro id sweep values hid _ hfresh _ hblank
    exact absurd (hblank id (hfresh ▸ Option.some_ne_none values)) hid
  case flat =>
    intro id sweep hid hkind htidy hblank
    exact .flat hmirror hacyclic htidy hblank hid hkind
  case deep =>
    intro id sweep inner hid hkind _ hinner htidy hblank
    exact .deep hmirror hacyclic htidy hid hkind (hinner htidy.meet hblank.meet)
  case nil =>
    intro found sweep htidy hblank
    exact .nil htidy hblank
  case again =>
    intro id rest found sweep result hid hrest htidy hblank
    exact .again hid (hrest htidy hblank)
  case cons =>
    intro id rest found sweep first result _ hfirst hrest htidy hblank
    have hfirst := hfirst htidy hblank
    exact .cons hmirror hfirst (hrest hfirst.toTidy hfirst.blank)

/-- Where nothing may be used again, a sweep from a query node stores something once at each query
node below it, itself included. What is stored at the node itself is fresh if and only if the nodes
below it are met by single ways. -/
theorem aggregate_blank {caches : Table NodeId (Cache V)} (hkind : (arena.node id).kind = .query)
    (hstale : ∀ n cache, caches.find? n = some cache → cache.isFresh = false) :
    (∃ cache, (arena.aggregate id (.start caches)).caches.find? id = some cache ∧
      (cache.isFresh = true ↔ arena.SingleWays id)) ∧
    (arena.aggregate id (.start caches)).stored.Nodup ∧
    ∀ n, n ∈ (arena.aggregate id (.start caches)).stored ↔
      (arena.node n).kind = .query ∧ Reaches arena.uppers n id := by
  have hnone : ∀ n, (Sweep.start caches).fresh? n = none := by
    intro n
    unfold Sweep.fresh?
    cases hcache : (Sweep.start caches).caches.find? n with
    | none => rfl
    | some cache => simp [hstale n cache hcache]
  have hsweep := exhausts_collect hmirror hacyclic (arena.node id).below.toList
    ⟨(arena.node id).values, true⟩ (.start caches) ⟨List.nodup_nil, fun _ h => h⟩
    fun n hn => absurd (hnone n) hn
  refine ⟨?_, (aggregate_once hmirror hacyclic caches id).1, ?_⟩
  all_goals rw [aggregate_of_stale hkind (hnone id)]
  all_goals
    generalize arena.collect (arena.node id).below.toList ⟨(arena.node id).values, true⟩
      (.start caches) = inner at hsweep
  · refine ⟨inner.cache, ?_, ?_⟩
    · simp only [Sweep.store, Table.find?_insert, if_true]
    · rw [hsweep.fresh, and_iff_right rfl, singleWays_iff hmirror hacyclic]
      exact ⟨fun h => ⟨h.single, h.apart⟩, fun h => ⟨fun _ _ _ _ => List.not_mem_nil, h.1, h.2⟩⟩
  · intro n
    change n ∈ id :: inner.sweep.stored ↔ _
    rw [List.mem_cons]
    constructor
    · rintro (rfl | hstored)
      · exact ⟨hkind, .refl⟩
      · refine ⟨(hsweep.query n hstored).resolve_left List.not_mem_nil, ?_⟩
        obtain ⟨lower, hlower, hn⟩ :=
          (hsweep.below n (hsweep.met n hstored)).resolve_left List.not_mem_nil
        exact hn.tail (hmirror.2 hlower)
    · rintro ⟨hquery, hn⟩
      refine ((reaches_iff_below hmirror).1 hn).imp_right ?_
      rintro ⟨lower, hlower, hn⟩
      have hseen := hsweep.mem_seen hmirror (hsweep.meets lower hlower)
        (fun _ _ => List.not_mem_nil) hn
      exact (hsweep.stores n hseen hquery).resolve_left List.not_mem_nil

end Arena

end Downset

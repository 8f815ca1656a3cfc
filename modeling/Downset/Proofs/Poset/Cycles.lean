import Downset.Poset.Normalize
import Downset.Proofs.Index.Cycles
import Downset.Proofs.Poset.Sorted

/-!
# Cycles of a finite order

A cycle shows when the keys are sorted and when a value is put at one of its keys. Normalising
makes no cycles, and on an order without cycles it changes no way from key to key. On an order with
cycles it keeps those whose steps are all essential: a key above itself, and whatever has no
branches. Others may be lost, since each of two ways around a cycle can make the steps of the other
look superfluous.
-/

namespace Downset

open Relation

variable {K : Type}

theorem KeyOrder.finite_between (order : KeyOrder K) (lower upper : K) :
    (between order.successors lower upper).Finite := by
  obtain ⟨above, habove⟩ := order.finite_above lower
  refine (List.finite_toSet (lower :: above)).subset fun key hkey => ?_
  rcases reflTransGen_iff_eq_or_transGen.1 hkey.1 with rfl | hup
  · exact List.mem_cons_self
  · exact List.mem_cons_of_mem lower (habove key hup)

theorem untangled_of_acyclic {next : K → List K} (h : ∀ key, ¬ OnCycle next key) (lower upper : K) :
    Untangled next lower upper := by
  intro key other _ hup hback _
  refine Classical.byContradiction fun hne => ?_
  have habove := (reflTransGen_iff_eq_or_transGen.1 hup).resolve_left (Ne.symm hne)
  exact h key (habove.trans_left hback)

variable [DecidableEq K]

/-- Some steps were taken away, but none that is essential. -/
structure Thins (next next' : K → List K) : Prop where
  essential : ∀ lower upper, upper ∈ next' lower ↔ Essential next lower upper
  reaches : ∀ lower upper, Reaches next' lower upper → Reaches next lower upper
  untangled : ∀ lower upper, Untangled next lower upper →
    (Reaches next' lower upper ↔ Reaches next lower upper)
  onCycle : ∀ key, OnCycle next' key → OnCycle next key
  singleRound : ∀ key, SingleRound next key → (OnCycle next' key ↔ OnCycle next key)
  self : ∀ key, key ∈ next' key ↔ key ∈ next key

theorem thins_of_essential (order : KeyOrder K) {next' : K → List K}
    (hnext : ∀ lower upper, upper ∈ next' lower ↔ Essential order.successors lower upper) :
    Thins order.successors next' where
  essential := hnext
  reaches _ _ := Reaches.of_essential hnext
  untangled lower upper h :=
    ⟨Reaches.of_essential hnext, Reaches.essential hnext h (order.finite_between lower upper)⟩
  onCycle _ := OnCycle.of_essential hnext
  singleRound _ h := ⟨OnCycle.of_essential hnext, OnCycle.essential hnext h⟩
  self _ := mem_self_iff_of_essential hnext

namespace Poset

variable {poset : Poset K} {key : K}

theorem Valid.thins_normalize (h : poset.Valid) :
    Thins poset.successors poset.normalize.successors :=
  thins_of_essential poset.toKeyOrder fun _ _ => h.mem_successors_normalize

variable [Quotable K]

/-- The cycles of an order show when its keys are sorted and when a value is put at one of them. -/
structure Surfaces (poset : Poset K) : Prop where
  sorting : Detects poset.toKeyOrder quote (OnCycle poset.successors) poset.topologicalOrder
  putting : ∀ {V : Type} [DecidableEq V] {index : Index K V}, index.Initial poset.toKeyOrder →
    ∀ operations : List (Operation K V), ((Session.start index).run operations).Smooth →
    ((Session.start index).run operations).index.phase = .writable →
    ∀ key value, OnCycle poset.successors key →
      ∃ name text, (((Session.start index).run operations).index.put key value).1 =
        .error (.cycleDetected name text)

theorem Valid.surfaces (h : poset.Valid) : poset.Surfaces where
  sorting := by
    rcases h.topologicalOrder_cases with ⟨order, hsorted, hsorts⟩ | ⟨key, hfails, hcycle⟩
    · rw [hsorted]
      exact .of_ok fun key => hsorts.not_onCycle
    · rw [hfails]
      exact Detects.of_error hcycle
  putting := by
    intro V _ index hindex operations hsmooth hphase key value hcycle
    have hs := (Session.faithful_start hindex).run operations
    exact (hs.detects_put hsmooth hphase key value).fails_iff.2 ⟨key, .refl, hcycle⟩

theorem put_of_acyclic {V : Type} [DecidableEq V] (hacyclic : ∀ key, ¬ OnCycle poset.successors key)
    (holds : K → Bool) (key : K) (value : V) :
    ((Index.ofPredicate poset.toKeyOrder holds : Index K V).put key value).1 = .ok () := by
  have hindex : (Index.ofPredicate poset.toKeyOrder holds : Index K V).Initial poset.toKeyOrder :=
    .ofPredicate holds
  have hsafe : poset.toKeyOrder.Safe key := fun other _ => hacyclic other
  obtain ⟨arena, hput⟩ := (Session.faithful_start hindex).put_ok hindex.phase_eq hsafe
  exact congrArg Prod.fst hput

theorem Valid.sorts_normalize (h : poset.Valid) (hacyclic : ∀ key, ¬ OnCycle poset.successors key) :
    ∃ order, poset.normalize.topologicalOrder = .ok order ∧ poset.Sorts order := by
  have hthins := h.thins_normalize
  rcases h.normalize.topologicalOrder_cases with ⟨order, hsorted, hsorts⟩ | ⟨key, _, hcycle⟩
  · refine ⟨order, hsorted, hsorts.nodup, hsorts.mem_iff, ?_⟩
    intro lower upper hstep
    have hreaches := (hthins.untangled lower upper (untangled_of_acyclic hacyclic lower upper)).2
      (.single hstep)
    refine hsorts.sublist_of_reaches hreaches ?_
    rintro rfl
    exact hacyclic lower (.single hstep)
  · exact absurd (hthins.onCycle key hcycle) (hacyclic key)

/-- Every cycle shows, before an order is normalised and after. Without a cycle, normalising leaves
all ways from key to key as they are. With one, exactly the essential steps are left. -/
theorem Declared.cycles_of_normalize (h : poset.Declared) :
    poset.Surfaces ∧ poset.normalize.Surfaces ∧
    Thins poset.successors poset.normalize.successors ∧
    ∀ order, poset.topologicalOrder = .ok order →
      (∃ sorted, poset.normalize.topologicalOrder = .ok sorted ∧ poset.Sorts sorted) ∧
      ∀ lower upper, Reaches poset.normalize.successors lower upper ↔
        Reaches poset.successors lower upper := by
  have hvalid := h.valid
  have hthins := hvalid.thins_normalize
  refine ⟨hvalid.surfaces, hvalid.normalize.surfaces, hthins, ?_⟩
  intro order hsorted
  have hacyclic : ∀ key, ¬ OnCycle poset.successors key := by
    intro key hcycle
    obtain ⟨name, text, hfails⟩ := hvalid.surfaces.sorting.fails_iff.2 ⟨key, hcycle⟩
    cases hsorted.symm.trans hfails
  refine ⟨hvalid.sorts_normalize hacyclic, fun lower upper => ?_⟩
  exact hthins.untangled lower upper (untangled_of_acyclic hacyclic lower upper)

theorem cycles_of_normalize_pair :
    let poset : Poset String := .ofEdges [("a", "b"), ("b", "a"), ("b", "c")]
    poset.Declared ∧ OnCycle poset.normalize.successors "a" ∧
      ∃ name text, poset.normalize.topologicalOrder = .error (.cycleDetected name text) := by
  intro poset
  have hdeclared : poset.Declared := .ofEdges _
  obtain ⟨_, hsurfaces, hthins, _⟩ := hdeclared.cycles_of_normalize
  have hkeys : ∀ key, Reaches poset.successors "a" key → key ∈ ["a", "b", "c"] :=
    fun key hreaches => hreaches.mem_of_closed (by decide) (by decide)
  have hback : ∀ key, Reaches poset.successors key "a" → key ≠ "c" := by
    rintro key hreaches rfl
    exact absurd (hreaches.eq_of_nil (by decide)) (by decide)
  have hround : SingleRound poset.successors "a" := by
    have hfew : ∀ key ∈ ["a", "b", "c"], ∀ left ∈ poset.successors key,
        ∀ right ∈ poset.successors key, left ≠ "c" → right ≠ "c" → left = right := by decide
    intro key left right hkey hleft hright hbackLeft hbackRight
    exact hfew key (hkeys key hkey) left hleft right hright (hback left hbackLeft)
      (hback right hbackRight)
  have hcycle : OnCycle poset.successors "a" :=
    .head (b := "b") (by decide) (.single (by decide))
  have hkept := (hthins.singleRound "a" hround).2 hcycle
  exact ⟨hdeclared, hkept, hsurfaces.sorting.fails_iff.2 ⟨"a", hkept⟩⟩

/-- Of two chains that contradict each other nothing is left: each step is judged by the chains as
declared, in which a way past the third key makes it look superfluous. -/
theorem normalize_hides_cycle :
    let rows := [["a", "b", "c"], ["c", "b", "a"]]
    let poset := ((∅ : Poset String).addKeys rows.flatten).addEdges (rows.flatMap chainPairs)
    let index : Index String String := .ofPredicate (ofRows rows).toKeyOrder fun _ => true
    poset.Declared ∧ poset.normalize = ofRows rows ∧
    OnCycle poset.successors "a" ∧
      (∃ name text, poset.topologicalOrder = .error (.cycleDetected name text)) ∧
      Reaches poset.successors "a" "b" ∧
    (∀ key, ¬ OnCycle (ofRows rows).successors key) ∧
      (∃ order, (ofRows rows).topologicalOrder = .ok order) ∧
      ¬ Reaches (ofRows rows).successors "a" "b" ∧
      (index.put "a" "x").1 = .ok () ∧
    ¬ ∀ poset : Poset String, poset.Declared →
      ((∃ fault, poset.normalize.topologicalOrder = .error fault) ↔
        ∃ fault, poset.topologicalOrder = .error fault) := by
  intro rows poset index
  have hdeclared : poset.Declared := (Declared.empty.addKeys _).addEdges _
  have hdetour : ∀ lower ∈ poset.keys, ∀ upper ∈ poset.successors lower, lower ≠ upper ∧
      ∃ middle ∈ poset.keys, middle ∈ without poset.successors lower upper lower ∧
        upper ∈ without poset.successors lower upper middle := by decide
  have hnone : ∀ lower, (ofRows rows).successors lower = [] := by
    intro lower
    refine List.eq_nil_iff_forall_not_mem.2 fun upper hupper => ?_
    obtain ⟨hstep, hkept⟩ := hdeclared.valid.mem_successors_normalize.1 hupper
    obtain ⟨_, _, hlower, _⟩ := hdeclared.valid.mem_successors.1 hstep
    obtain ⟨hne, middle, _, hup, hrest⟩ :=
      hdetour lower (List.mem_of_getElem? hlower) upper hstep
    exact hkept.resolve_left hne (.head hup (.single hrest))
  have hacyclic : ∀ key, ¬ OnCycle (ofRows rows).successors key := by
    intro key hcycle
    obtain ⟨next, hnext, _⟩ := TransGen.head'_iff.1 hcycle
    exact absurd (hnone key ▸ hnext) List.not_mem_nil
  have hstep : "b" ∈ poset.successors "a" := by decide
  have hcycle : OnCycle poset.successors "a" := .head hstep (.single (by decide))
  have hbefore := hdeclared.valid.surfaces.sorting.fails_iff.2 ⟨"a", hcycle⟩
  have hafter := hdeclared.normalize.valid.surfaces.sorting.succeeds fun ⟨key, h⟩ => hacyclic key h
  have hput : (index.put "a" "x").1 = .ok () := put_of_acyclic hacyclic _ "a" "x"
  refine ⟨hdeclared, rfl, hcycle, hbefore, .single hstep, hacyclic, hafter,
    fun hreaches => ?_, hput, fun hall => ?_⟩
  · exact absurd (hreaches.eq_of_nil (hnone "a")) (by decide)
  · obtain ⟨name, text, hfails⟩ := hbefore
    obtain ⟨order, hsorted⟩ := hafter
    obtain ⟨fault, hfails⟩ := (hall poset hdeclared).2 ⟨_, hfails⟩
    cases hsorted.symm.trans hfails

end Poset

end Downset

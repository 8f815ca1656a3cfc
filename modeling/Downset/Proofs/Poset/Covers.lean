import Downset.Proofs.Poset.Chains

/-!
# Covers

A point covers another if it lies above it and nothing lies between. Without cycles the essential
steps lead from each point to those that cover it, which depends on what lies above what, and not on
which steps were taken to say so. So an order without cycles that is normalised depends on its keys,
on how they are numbered and on what lies above what; and to normalise chains before edges are added
to them makes no difference in the end.

With cycles, what is kept are the edges from a number to itself and each other edge that no way
avoids. An edge that is kept would be kept again, because with fewer edges fewer ways avoid it. So
to normalise once more changes nothing, although the edges that are left need not lead everywhere.
-/

namespace Downset

open Relation

section Covers

variable {α : Type} {next next' : α → List α} {a b c d : α}

/-- The second point lies above the first, and no point lies between them. -/
def Covers (next : α → List α) (a b : α) : Prop :=
  Above next a b ∧ ∀ c, Above next a c → ¬ Above next c b

theorem above_iff_of_acyclic (hacyclic : ∀ a, ¬ OnCycle next a) :
    Above next a b ↔ Reaches next a b ∧ a ≠ b := by
  constructor
  · intro h
    refine ⟨h.to_reflTransGen, ?_⟩
    rintro rfl
    exact hacyclic a h
  · rintro ⟨hreaches, hne⟩
    exact (reflTransGen_iff_eq_or_transGen.1 hreaches).resolve_left (Ne.symm hne)

/-- Where there are no cycles, what covers what depends on what leads to what. -/
theorem covers_congr (hacyclic : ∀ a, ¬ OnCycle next a) (hacyclic' : ∀ a, ¬ OnCycle next' a)
    (hreaches : ∀ a b, Reaches next' a b ↔ Reaches next a b) :
    Covers next' a b ↔ Covers next a b := by
  simp only [Covers, above_iff_of_acyclic hacyclic, above_iff_of_acyclic hacyclic', hreaches]

variable [DecidableEq α]

theorem reaches_without (h : Reaches next c d) (hstep : Reaches next c a → ¬ Reaches next b d) :
    Reaches (without next a b) c d := by
  induction h using ReflTransGen.head_induction_on with
  | refl => exact .refl
  | @head c e step rest ih =>
    have hother : e ∈ without next a b c := by
      refine mem_without.2 ⟨step, ?_⟩
      rintro ⟨rfl, rfl⟩
      exact hstep .refl rest
    exact .head hother (ih fun hea => hstep (.head step hea))

/-- Without cycles, the essential steps lead to the points that cover their starts. -/
theorem essential_iff_covers (hacyclic : ∀ a, ¬ OnCycle next a) :
    Essential next a b ↔ Covers next a b := by
  constructor
  · rintro ⟨hstep, hor⟩
    have hnot : ¬ Reaches (without next a b) a b := by
      refine hor.resolve_left ?_
      rintro rfl
      exact hacyclic a (.single hstep)
    refine ⟨.single hstep, fun c hac hcb => hnot ?_⟩
    have hlow : Reaches (without next a b) a c :=
      reaches_without hac.to_reflTransGen fun _ hbc => hacyclic b (.trans_right hbc hcb)
    have hhigh : Reaches (without next a b) c b :=
      reaches_without hcb.to_reflTransGen fun hca => absurd (hac.trans_left hca) (hacyclic a)
    exact hlow.trans hhigh
  · rintro ⟨habove, hnone⟩
    have hdirect : b ∈ next a := by
      obtain ⟨c, hstep, hcb⟩ := TransGen.head'_iff.1 habove
      rcases reflTransGen_iff_eq_or_transGen.1 hcb with rfl | hcb
      · exact hstep
      · exact absurd hcb (hnone c (.single hstep))
    have hne : a ≠ b := by
      rintro rfl
      exact hacyclic a (.single hdirect)
    refine ⟨hdirect, .inr fun hother => ?_⟩
    obtain ⟨d, hda, hdb, had, hdb'⟩ := exists_detour hother hne
    exact hnone d ((above_iff_of_acyclic hacyclic).2 ⟨had, hda.symm⟩)
      ((above_iff_of_acyclic hacyclic).2 ⟨hdb', hdb⟩)

end Covers

namespace Poset

variable {K : Type} [DecidableEq K] {poset other : Poset K} {lower upper : K} {u v : Nat}
  {rows : List (List K)} {edges : List (K × K)}

namespace Valid

omit [DecidableEq K] in
theorem mem_next_normalize (h : poset.Valid) :
    v ∈ poset.normalize.graph.next u ↔ Essential poset.graph.next u v := by
  have hmem : ∀ x y, y ∈ (poset.graph.eraseEdge u v).next x ↔
      y ∈ without poset.graph.next u v x := by
    intro x y
    rw [mem_without]
    exact Digraph.mem_next_eraseEdge (h.rows u)
  have hways : Reaches (poset.graph.eraseEdge u v).next u v ↔
      Reaches (without poset.graph.next u v) u v :=
    ⟨ReflTransGen.mono (fun x y => (hmem x y).1) _ _,
      ReflTransGen.mono (fun x y => (hmem x y).2) _ _⟩
  change v ∈ poset.graph.normalize.next u ↔ _
  rw [Digraph.mem_next_normalize, hways]
  rfl

theorem not_onCycle_next (h : poset.Valid) (hacyclic : ∀ key, ¬ OnCycle poset.successors key)
    (u : Nat) : ¬ OnCycle poset.graph.next u := by
  intro hcycle
  obtain ⟨v, hedge, _⟩ := TransGen.head'_iff.1 hcycle
  obtain ⟨key, hkey⟩ := h.exists_key (Digraph.mem_vertices_of_mem_next hedge)
  exact hacyclic key ((h.onCycle_iff hkey).2 hcycle)

theorem reaches_next (h : poset.Valid) (h' : other.Valid) (hkeys : other.keys = poset.keys)
    (hreaches : ∀ lower upper, Reaches poset.successors lower upper →
      Reaches other.successors lower upper) (huv : Reaches poset.graph.next u v) :
    Reaches other.graph.next u v := by
  refine reflTransGen_closed (fun x y hedge => ?_) _ _ huv
  obtain ⟨lower, hx⟩ := h.exists_key (Digraph.mem_vertices_of_mem_next hedge)
  obtain ⟨upper, hy⟩ : ∃ upper, poset.keys[y]? = some upper :=
    ⟨_, List.getElem?_eq_getElem (h.bound x y hedge)⟩
  have hstep := hreaches lower upper (.single (h.mem_successors.2 ⟨x, y, hx, hy, hedge⟩))
  rw [← hkeys] at hx hy
  exact (h'.reaches_iff hx hy).1 hstep

omit [DecidableEq K] in
/-- Normalised orders with the same keys are the same if they have the same edges, since the
successors of each number stand in ascending order. -/
theorem normalize_eq_of_mem_iff (h : poset.Valid) (h' : other.Valid) (hkeys : other.keys = poset.keys)
    (hmem : ∀ u v, v ∈ other.normalize.graph.next u ↔ v ∈ poset.normalize.graph.next u) :
    other.normalize = poset.normalize := by
  have hgraph : other.normalize.graph = poset.normalize.graph := by
    refine Digraph.eq_of_next_eq ?_ fun u => ?_
    · exact (h'.normalize.size.trans (congrArg List.length hkeys)).trans h.normalize.size.symm
    · exact (Digraph.pairwise_next_normalize (h'.rows u)).eq_of_mem_iff
        (Digraph.pairwise_next_normalize (h.rows u)) (hmem u)
  change (⟨other.keys, other.normalize.graph.rows⟩ : Poset K) = ⟨poset.keys, _⟩
  rw [hkeys, hgraph]
  rfl

/-- A normalised order without cycles depends on its keys with their numbers and on what leads to
what. -/
theorem normalize_eq (h : poset.Valid) (h' : other.Valid)
    (hacyclic : ∀ key, ¬ OnCycle poset.successors key)
    (hacyclic' : ∀ key, ¬ OnCycle other.successors key) (hkeys : other.keys = poset.keys)
    (hreaches : ∀ lower upper, Reaches other.successors lower upper ↔
      Reaches poset.successors lower upper) : other.normalize = poset.normalize := by
  have hnumbers : ∀ u v, Reaches other.graph.next u v ↔ Reaches poset.graph.next u v :=
    fun u v => ⟨h'.reaches_next h hkeys.symm fun lower upper => (hreaches lower upper).1,
      h.reaches_next h' hkeys fun lower upper => (hreaches lower upper).2⟩
  refine h.normalize_eq_of_mem_iff h' hkeys fun u v => ?_
  rw [h'.mem_next_normalize, h.mem_next_normalize,
    essential_iff_covers (h'.not_onCycle_next hacyclic'),
    essential_iff_covers (h.not_onCycle_next hacyclic)]
  exact covers_congr (h.not_onCycle_next hacyclic) (h'.not_onCycle_next hacyclic') hnumbers

end Valid

section Chains

theorem keys_addEdges (hkeys : other.keys = poset.keys) (edges : List (K × K)) :
    (other.addEdges edges).keys = (poset.addEdges edges).keys := by
  have hadd : ∀ {poset other : Poset K}, other.keys = poset.keys → ∀ key,
      (other.addKey key).keys = (poset.addKey key).keys := by
    intro poset other hkeys key
    simp only [addKey, hkeys]
    split
    · exact hkeys
    · rfl
  induction edges generalizing poset other with
  | nil => exact hkeys
  | cons edge rest ih => exact ih (hadd (hadd hkeys edge.1) edge.2)

theorem mem_successors_chains_addEdges :
    upper ∈ ((chains rows).addEdges edges).successors lower ↔ Declares rows edges lower upper := by
  rw [(declared_chains rows).valid.mem_successors_addEdges, mem_successors_chains]
  rfl

/-- Chains may be normalised before edges are added to them. -/
theorem normalize_ofRows_addEdges
    (hacyclic : ∀ key, ¬ OnCycle ((chains rows).addEdges edges).successors key) :
    ((ofRows rows).addEdges edges).normalize = ((chains rows).addEdges edges).normalize := by
  have hdeclares : ∀ key, ¬ TransGen (Declares rows edges) key key := fun key hcycle =>
    hacyclic key (TransGen.mono (fun _ _ => mem_successors_chains_addEdges.2) _ _ hcycle)
  have hvalid := ((declared_chains rows).addEdges edges).valid
  have hkeys : (ofRows rows).keys = (chains rows).keys := rfl
  refine hvalid.normalize_eq (declared_addEdges rows edges).valid hacyclic
    (fun key => not_onCycle_of_acyclic hdeclares) (keys_addEdges hkeys edges) ?_
  intro lower upper
  constructor
  · exact ReflTransGen.mono (fun _ _ hstep =>
      mem_successors_chains_addEdges.2 (declares_of_mem_successors hstep)) _ _
  · exact reflTransGen_closed (fun _ _ hstep =>
      reaches_of_declares hdeclares (mem_successors_chains_addEdges.1 hstep)) _ _

end Chains

/-- Normalising an order without cycles leaves with each number, in ascending order, the numbers
that cover it, and all ways from key to key. The outcome is the same for every order without cycles
that has the same keys with the same numbers and the same ways, as it is for chains and edges,
whether or not the chains are normalised before the edges are added. -/
theorem Declared.covers_of_normalize (h : poset.Declared)
    (hacyclic : ∀ key, ¬ OnCycle poset.successors key) :
    poset.normalize.keys = poset.keys ∧
    (∀ u, (poset.normalize.graph.next u).Pairwise (· < ·) ∧
      ∀ v, v ∈ poset.normalize.graph.next u ↔ Covers poset.graph.next u v) ∧
    (∀ lower upper, Reaches poset.normalize.successors lower upper ↔
      Reaches poset.successors lower upper) ∧
    (∀ other : Poset K, other.Declared → (∀ key, ¬ OnCycle other.successors key) →
      other.keys = poset.keys →
      (∀ lower upper, Reaches other.successors lower upper ↔ Reaches poset.successors lower upper) →
        other.normalize = poset.normalize) ∧
    ∀ (rows : List (List K)) (edges : List (K × K)),
      let whole := ((∅ : Poset K).addKeys rows.flatten).addEdges (rows.flatMap chainPairs ++ edges)
      (∀ key, ¬ OnCycle whole.successors key) →
        ((Poset.ofRows rows).addEdges edges).normalize = whole.normalize := by
  have hvalid := h.valid
  refine ⟨rfl, fun u => ⟨Digraph.pairwise_next_normalize (hvalid.rows u), fun v => ?_⟩, ?_, ?_, ?_⟩
  · rw [hvalid.mem_next_normalize, essential_iff_covers (hvalid.not_onCycle_next hacyclic)]
  · intro lower upper
    exact hvalid.thins_normalize.untangled lower upper (untangled_of_acyclic hacyclic lower upper)
  · intro other hother hacyclic' hkeys hreaches
    exact hvalid.normalize_eq hother.valid hacyclic hacyclic' hkeys hreaches
  · intro rows edges whole hwhole
    have hsplit : whole = (chains rows).addEdges edges := List.foldl_append
    rw [hsplit] at hwhole ⊢
    exact normalize_ofRows_addEdges hwhole

theorem covers_of_normalize_kite :
    let rows := [["a", "b", "d"]]
    let edges := [("a", "c"), ("c", "d")]
    let poset := ((∅ : Poset String).addKeys rows.flatten).addEdges (rows.flatMap chainPairs ++ edges)
    poset.Declared ∧ (∀ key, ¬ OnCycle poset.successors key) ∧ 2 ∈ poset.graph.next 0 ∧
      2 ∉ poset.normalize.graph.next 0 ∧ Reaches poset.normalize.successors "a" "d" ∧
      ((ofRows rows).addEdges edges).normalize = poset.normalize := by
  intro rows edges poset
  have hdeclared : poset.Declared := (Declared.empty.addKeys _).addEdges _
  have hacyclic := hdeclared.valid.not_onCycle_of_ascending ["a", "b", "c", "d"].idxOf (by decide)
  obtain ⟨_, hcovers, hreaches, _, hchains⟩ := hdeclared.covers_of_normalize hacyclic
  refine ⟨hdeclared, hacyclic, by decide, fun hkept => ?_, ?_, hchains rows edges hacyclic⟩
  · have hlow : Above poset.graph.next 0 1 := .single (by decide)
    have hhigh : Above poset.graph.next 1 2 := .single (by decide)
    exact (((hcovers 0).2 2).1 hkept).2 1 hlow hhigh
  · exact (hreaches "a" "d").2 (.single (by decide))

omit [DecidableEq K] in
theorem Valid.normalize_normalize (h : poset.Valid) :
    poset.normalize.normalize = poset.normalize := by
  refine h.normalize_eq_of_mem_iff h.normalize rfl fun u v => ?_
  rw [h.normalize.mem_next_normalize]
  exact essential_iff_of_essential fun _ _ => h.mem_next_normalize

/-- Normalising changes neither the keys nor their numbers and adds no edge. It keeps the edges from
a number to itself, and of the other edges those between the ends of which no other way leads. The
successors of each number are in ascending order, and to normalise again changes nothing. -/
theorem Declared.normalize_projects (h : poset.Declared) :
    poset.normalize.keys = poset.keys ∧
    (∀ key, poset.normalize.number? key = poset.number? key) ∧
    (∀ u, ∀ v ∈ poset.normalize.graph.next u, v ∈ poset.graph.next u) ∧
    (∀ u ∈ poset.graph.next u, u ∈ poset.normalize.graph.next u) ∧
    (∀ u, ∀ v ∈ poset.graph.next u, u ≠ v →
      (v ∈ poset.normalize.graph.next u ↔ ¬ Reaches (without poset.graph.next u v) u v)) ∧
    (∀ u, (poset.normalize.graph.next u).Pairwise (· < ·)) ∧
    poset.normalize.normalize = poset.normalize := by
  have hvalid := h.valid
  have hmem : ∀ u v, v ∈ poset.normalize.graph.next u ↔ Essential poset.graph.next u v :=
    fun _ _ => hvalid.mem_next_normalize
  refine ⟨rfl, fun _ => rfl, ?less, ?self, ?other, ?ascending, hvalid.normalize_normalize⟩
  case less => exact fun u v hkept => ((hmem u v).1 hkept).1
  case self => exact fun u hself => (hmem u u).2 ⟨hself, .inl rfl⟩
  case other =>
    intro u v hedge hne
    rw [hmem, Essential, and_iff_right hedge, or_iff_right hne]
  case ascending => exact fun u => Digraph.pairwise_next_normalize (hvalid.rows u)

/-- Of two keys above each other both edges to a third key are dropped, since each makes the other
look superfluous. -/
theorem normalize_projects_pair :
    let poset : Poset String :=
      .ofEdges [("a", "b"), ("b", "a"), ("b", "c"), ("a", "c"), ("c", "c")]
    poset.Declared ∧ 1 ∈ poset.normalize.graph.next 0 ∧ 2 ∈ poset.normalize.graph.next 2 ∧
      2 ∉ poset.normalize.graph.next 0 ∧ 2 ∉ poset.normalize.graph.next 1 ∧
      poset.normalize.normalize = poset.normalize := by
  intro poset
  have hdeclared : poset.Declared := .ofEdges _
  obtain ⟨_, _, _, hself, hother, _, hagain⟩ := hdeclared.normalize_projects
  have hstuck : ¬ Reaches (without poset.graph.next 0 1) 0 1 := by
    intro hreaches
    have hclosed : ∀ u ∈ [0, 2], ∀ v ∈ without poset.graph.next 0 1 u, v ∈ [0, 2] := by decide
    exact absurd (hreaches.mem_of_closed hclosed (by decide)) (by decide)
  refine ⟨hdeclared, (hother 0 1 (by decide) (by decide)).2 hstuck, hself 2 (by decide),
    fun hkept => ?_, fun hkept => ?_, hagain⟩
  · have hway : Reaches (without poset.graph.next 0 2) 0 2 :=
      .head (b := 1) (by decide) (.single (by decide))
    exact (hother 0 2 (by decide) (by decide)).1 hkept hway
  · have hway : Reaches (without poset.graph.next 1 2) 1 2 :=
      .head (b := 0) (by decide) (.single (by decide))
    exact (hother 1 2 (by decide) (by decide)).1 hkept hway

end Poset

end Downset

import Downset.Proofs.Arena.Grown
import Downset.Proofs.Index.Representation

/-!
# What a put leaves alone

A put adds to an index and takes nothing away, whether it succeeds, runs into a cycle half way or
is refused. The nodes that were there keep their slots, keys and links upwards, and their values
but for the one that is put; further links downwards come from new nodes. All that can be
forgotten is what was remembered of the key itself, when it becomes a leaf below just that.
-/

namespace Downset

variable {K V : Type} [DecidableEq K] {order : KeyOrder K} {filter : KeyFilter K}
  {index : Index K V}

namespace Arena

/-- The key has a slot within the array, and there is a node of this kind. -/
def HasKind (arena : Arena K V) (key : K) (kind : NodeKind) : Prop :=
  ∃ n, arena.slots.find? key = some n ∧ n.index < arena.nodes.size ∧ (arena.node n).kind = kind

variable {arena after : Arena K V} {key : K} {kind : NodeKind}

theorem HasKind.kindOf?_eq (h : arena.HasKind key kind) : arena.kindOf? key = some kind := by
  obtain ⟨n, hslot, _, hkind⟩ := h
  rw [kindOf?, hslot, Option.map_some, hkind]

theorem Consistent.hasKind {dropped : K → K → Prop} (h : Consistent order filter dropped [] arena)
    (hkind : arena.kindOf? key = some kind) : arena.HasKind key kind := by
  unfold kindOf? at hkind
  cases hslot : arena.slots.find? key with
  | none =>
    rw [hslot] at hkind
    cases hkind
  | some n =>
    rw [hslot, Option.map_some, Option.some.injEq] at hkind
    refine ⟨n, hslot, ?_, hkind⟩
    by_cases hne : n = .sink
    · subst hne
      exact h.size_pos
    · exact index_lt_of_kind_ne_sink (kind_ne_sink (h.key_of_slot hslot hne))

theorem Grown.hasKind (h : Grown arena after) (hkind : arena.HasKind key kind) :
    after.HasKind key kind := by
  obtain ⟨n, hslot, hlt, hkind⟩ := hkind
  exact ⟨n, h.slots hslot, Nat.lt_of_lt_of_le hlt h.size, (h.kind n hlt).trans hkind⟩

/-- Whatever is asked of an index, a key remains what it was made into. -/
theorem HasKind.lasts : Lasts order filter fun arena : Arena K V => arena.HasKind key kind where
  locate {arena other} h := by
    refine (Build.locate_grown arena other).mono ?_ ?_
    · exact fun _ _ hafter => hafter.toGrown.hasKind h
    · exact fun _ _ hafter => hafter.hasKind h
  shape := by
    rintro arena after ⟨n, hslot, hlt, hkind⟩ hshape
    exact ⟨n, hshape.slots ▸ hslot, hshape.size ▸ hlt, (hshape.kind n).trans hkind⟩

end Arena

namespace Index

/-- What a put with this result has done to an index. -/
structure Extended (index : Index K V) [DecidableEq V] (key : K) (value : V)
    (result : Except Fault Unit) (after : Index K V) : Prop where
  rest : after = { index with arena := after.arena }
  refused : ∀ required actual, result = .error (.phaseViolation required actual) → after = index
  size : index.arena.nodes.size ≤ after.arena.nodes.size
  kind : ∀ n, n.index < index.arena.nodes.size →
    (after.arena.node n).kind = (index.arena.node n).kind
  key? : ∀ n, n.index < index.arena.nodes.size →
    (after.arena.node n).key? = (index.arena.node n).key?
  above : ∀ n, n.index < index.arena.nodes.size →
    (after.arena.node n).above = (index.arena.node n).above
  below : ∀ n, n.index < index.arena.nodes.size → ∃ more,
    (after.arena.node n).below.toList = (index.arena.node n).below.toList ++ more ∧
      ∀ m ∈ more, index.arena.nodes.size ≤ m.index ∧ m.index < after.arena.nodes.size
  stored : result = .ok () → ∃ id, after.arena.slots.find? key = some id ∧
    ∀ n, (after.arena.node n).values =
      if n = id ∧ (after.arena.node n).kind ≠ .sink then (index.arena.node n).values.insert value
      else (index.arena.node n).values
  unstored : ∀ fault, result = .error fault →
    ∀ n, (after.arena.node n).values = (index.arena.node n).values
  slots : ∀ other n, index.arena.slots.find? other = some n →
    after.arena.slots.find? other = some n
  /-- What was remembered of a key is kept, unless the key itself becomes a leaf below that. -/
  skipped : ∀ other found, index.arena.skipped.find? other = some found →
    after.arena.skipped.find? other = some found ∨
      other = key ∧ result = .ok () ∧ ∃ n, after.arena.slots.find? key = some n ∧
        (after.arena.node n).kind = .leaf ∧ (after.arena.node n).above = found

variable [DecidableEq V] {key : K} {value : V}

theorem extended_of_refused (h : index.phase ≠ .writable) :
    index.Extended key value (index.put key value).1 (index.put key value).2 := by
  rw [put_of_ne_writable h]
  refine ⟨rfl, fun _ _ _ => rfl, Nat.le_refl _, fun _ _ => rfl, fun _ _ => rfl, fun _ _ => rfl,
    fun _ _ => ⟨[], by simp, by simp⟩, ?_, fun _ _ _ => rfl, fun _ _ h => h, fun _ _ h => .inl h⟩
  rintro ⟨⟩

theorem extended_of_abandoned {name text : String} {after : Arena K V}
    (hphase : index.phase = .writable)
    (hlocate : index.locate key = (.error (.cycleDetected name text), { index with arena := after }))
    (hgrown : index.arena.Grown after)
    (hmirror : ∀ {n m}, m ∈ (after.node n).above ↔ n ∈ (after.node m).below) :
    index.Extended key value (index.put key value).1 (index.put key value).2 := by
  rw [put_of_abandoned hphase hlocate]
  exact {
    rest := rfl
    refused := nofun
    size := hgrown.size
    kind := hgrown.kind
    key? := hgrown.key?
    above := hgrown.above
    below := fun _ hn => hgrown.below_lt hmirror hn
    stored := nofun
    unstored := fun _ _ => hgrown.values
    slots := fun _ _ hn => hgrown.slots hn
    skipped := fun _ _ hfound => .inl (hgrown.skipped hfound) }

theorem extended_of_located {id : NodeId} {after : Arena K V} (hphase : index.phase = .writable)
    (hlocate : index.locate key = (.ok id, { index with arena := after }))
    (hgrown : index.arena.GrownAt key id after) (hslot : after.slots.find? key = some id)
    (hmirror : ∀ {n m}, m ∈ (after.node n).above ↔ n ∈ (after.node m).below)
    (hproductive : index.arena.Productive) :
    index.Extended key value (index.put key value).1 (index.put key value).2 := by
  have hshape := after.sameShape_accept id value
  rw [put_of_located hphase hlocate]
  refine ⟨rfl, nofun, ?_, ?_, ?_, ?_, ?_, ?_, nofun, ?_, ?_⟩
  · exact hshape.size ▸ hgrown.size
  · exact fun n hn => (hshape.kind n).trans (hgrown.kind n hn)
  · exact fun n hn => (hshape.key? n).trans (hgrown.key? n hn)
  · exact fun n hn => (hshape.above n).trans (hgrown.above n hn)
  · intro n hn
    obtain ⟨more, hmore, hnew⟩ := hgrown.below_lt hmirror hn
    exact ⟨more, hshape.below n ▸ hmore, fun m hm => hshape.size ▸ hnew m hm⟩
  · intro _
    refine ⟨id, hslot, fun n => ?_⟩
    have hvalues : (after.node n).values = (index.arena.node n).values := hgrown.values n
    rw [hshape.kind, Arena.node_accept, ← hvalues]
    by_cases hn : n = id
    · simp [hn, Node.values_accept]
    · simp [hn]
  · exact fun other n hn => hgrown.slots hn
  · intro other found hfound
    by_cases hother : other = key
    · subst hother
      have hmem := hproductive.skipped_some other found hfound
      refine (hgrown.remembered found hfound hmem).imp_right ?_
      rintro ⟨hslot, hkind, habove⟩
      exact ⟨rfl, rfl, id, hslot, (hshape.kind id).trans hkind, (hshape.above id).trans habove⟩
    · refine .inl (hgrown.skipped ?_)
      rw [Arena.forget, Table.find?_erase, if_neg hother]
      exact hfound

end Index

namespace Session

variable [Quotable K] [DecidableEq V]

/-- A put does nothing to an index but to extend it, in whatever state it is and whatever the result
is. If the phase does not allow it, nothing happens. So a key that was made into something remains
that, whatever else is asked. -/
theorem put_extends (hindex : index.Initial order) (operations : List (Operation K V)) (key : K)
    (value : V) :
    let s := (start index).run operations
    s.index.Extended key value (s.index.put key value).1 (s.index.put key value).2 ∧
    (s.index.phase ≠ .writable →
      s.index.put key value = (.error (.phaseViolation .writable s.index.phase), s.index)) ∧
    ∀ other kind, s.index.kindOf? other = some kind →
      ∀ later, (s.run later).index.kindOf? other = some kind := by
  intro s
  have hs : s.Faithful order index.filter := (faithful_start hindex).run operations
  have hproductive : s.index.arena.Productive := productive_run hindex operations
  refine ⟨?_, fun hphase => Index.put_of_ne_writable hphase, ?_⟩
  · by_cases hphase : s.index.phase = .writable
    · have hends : (Build.locate s.index.order s.index.filter key).Ends s.index.arena _ _ :=
        (Build.locate_spec (hs.order_eq ▸ hs.filter_eq ▸ hs.consistent)).and
          (Build.locate_grown s.index.arena key)
      rcases s.index.locate_ends hends with
        ⟨id, after, hlocate, hlocates, hgrown⟩ | ⟨twice, after, hlocate, habandons, hgrown⟩
      · exact Index.extended_of_located hphase hlocate hgrown hlocates.located
          hlocates.consistent.mirror hproductive
      · exact Index.extended_of_abandoned hphase hlocate hgrown habandons.consistent.mirror
    · exact Index.extended_of_refused hphase
  · intro other kind hkind later
    have hnode : s.index.arena.HasKind other kind := hs.consistent.hasKind hkind
    exact (hs.run_lasts Arena.HasKind.lasts hnode later).kindOf?_eq

/-- The first put runs into the cycle and is given up half way; the second one succeeds, and the
third one is refused. -/
theorem put_extends_knot :
    let index : Index Int Nat := .ofPredicate .knot fun key => decide (key ≠ 2)
    let s := (start index).run [.put 2 20]
    let read := (start index).run [.put 2 20, .put 3 30, .makeReadable]
    index.Initial .knot ∧ s.index.Extended 3 30 (s.index.put 3 30).1 (s.index.put 3 30).2 ∧
      (read.index.put 2 21).2 = read.index := by
  intro index s read
  have hindex : index.Initial .knot := .ofPredicate fun key => decide (key ≠ 2)
  obtain ⟨hextended, _⟩ := put_extends hindex [.put 2 20] 3 30
  obtain ⟨_, hrefused, _⟩ := put_extends hindex [.put 2 20, .put 3 30, .makeReadable] 2 21
  have hphase : read.index.phase = .readable := rfl
  have hrefused := hrefused fun h => Phase.noConfusion (hphase.symm.trans h)
  exact ⟨hindex, hextended, congrArg Prod.snd hrefused⟩

end Session

end Downset

import Downset.Proofs.Build.Keeps
import Downset.Proofs.Index.Faithful

/-!
# What lasts through a session

A property of arenas lasts if it survives that a key is located, also when the walk stops at a
cycle, and does not depend on the values of the nodes. If moreover the empty arena has it, and
dropping the bridged links of an arena without leaves keeps it, then the arena of an index has it
throughout every session.
-/

namespace Downset

variable {K V : Type} [DecidableEq K] {order : KeyOrder K} {filter : KeyFilter K}
  {index last : Index K V} {P : Arena K V → Prop} {key : K} {keys : List K}

/-- No request can break the property. -/
structure Arena.Lasts (order : KeyOrder K) (filter : KeyFilter K) (P : Arena K V → Prop) : Prop where
  locate : ∀ {arena key}, P arena →
    (Build.locate order filter key).Ends arena (fun _ after => P after) (fun _ after => P after)
  shape : ∀ {arena after}, P arena → arena.SameShape after → P after

namespace Index

theorem locateAll_lasts (hP : Arena.Lasts index.order index.filter P) (h : P index.arena)
    (hall : index.locateAll keys = .ok last) : P last.arena := by
  induction keys generalizing index with
  | nil =>
    rw [locateAll, Except.ok.injEq] at hall
    exact hall ▸ h
  | cons key rest ih =>
    unfold locateAll at hall
    rcases index.locate_ends (hP.locate h) with
      ⟨id, after, hlocate, hafter⟩ | ⟨twice, after, hlocate, _⟩
    · rw [hlocate] at hall
      exact @ih { index with arena := after } hP hafter hall
    · rw [hlocate] at hall
      cases hall

/-- An index for a list of keys is made by locating all of them and dropping links. -/
theorem exists_locateAll_of_ofKeys [Quotable K] (hmade : ofKeys order keys = .ok index) :
    ∃ last : Index K V,
      (empty order (keyFilter keys) quote).locateAll (OrderedSet.ofList keys).toList = .ok last ∧
      index = { last with arena := last.arena.dropTransitive } := by
  unfold ofKeys at hmade
  change Except.map _ ((empty order (keyFilter keys) quote).locateAll _) = _ at hmade
  cases hall : (empty order (keyFilter keys) quote : Index K V).locateAll
      (OrderedSet.ofList keys).toList with
  | error fault =>
    rw [hall] at hmade
    cases hmade
  | ok last =>
    rw [hall] at hmade
    exact ⟨last, rfl, (Except.ok.inj hmade).symm⟩

theorem Initial.lasts [Quotable K] (h : index.Initial order)
    (hP : ∀ filter, Arena.Lasts order filter P) (hempty : P ∅)
    (hdrop : ∀ {arena}, P arena → (∀ n, (arena.node n).kind ≠ .leaf) → P arena.dropTransitive) :
    P index.arena := by
  induction h with
  | ofPredicate holds => exact hempty
  | @ofKeys keys index made =>
    obtain ⟨last, hall, rfl⟩ := exists_locateAll_of_ofKeys made
    refine hdrop (locateAll_lasts (hP _) hempty hall) ?_
    have hkeys : ∀ key ∈ (OrderedSet.ofList keys).toList, (keyFilter keys).accepts key = true :=
      fun key hkey => decide_eq_true hkey
    rcases locateAll_cases (empty order (keyFilter keys) quote : Index K V) hkeys
        (Arena.prepared_empty order (keyFilter keys)) with ⟨after, hafter, h, _⟩ | ⟨_, _, _, hfails, _⟩
    · rw [hall, Except.ok.injEq] at hafter
      exact hafter ▸ h.ne_leaf
    · rw [hall] at hfails
      cases hfails
  | withRender initial render ih => exact ih

variable [DecidableEq V] {value : V}

theorem arena_get : (index.get key).2.arena = index.arena := by
  unfold get
  split
  · rfl
  · split
    · rfl
    · split <;> rfl

theorem put_lasts (hP : Arena.Lasts index.order index.filter P) (h : P index.arena) :
    P (index.put key value).2.arena := by
  by_cases hphase : index.phase = .writable
  · have hends : (Build.locate index.order index.filter key).Ends index.arena
        (fun _ after => P after) (fun _ after => P after) := hP.locate h
    rcases index.locate_ends hends with
      ⟨id, after, hlocate, hafter⟩ | ⟨twice, after, hlocate, hafter⟩
    · rw [put_of_located hphase hlocate]
      exact hP.shape hafter (after.sameShape_accept id value)
    · rw [put_of_abandoned hphase hlocate]
      exact hafter
  · rw [put_of_ne_writable hphase]
    exact h

end Index

namespace Session

variable [DecidableEq V] {s : Session K V}

namespace Faithful

theorem step_lasts (hs : s.Faithful order filter) (hP : Arena.Lasts order filter P)
    (h : P s.index.arena) (operation : Operation K V) : P (s.step operation).index.arena := by
  cases operation with
  | put key value =>
    rw [index_step_put]
    exact Index.put_lasts (hs.order_eq ▸ hs.filter_eq ▸ hP) h
  | get key =>
    rw [index_step_get, Index.arena_get]
    exact h
  | makeReadable => exact h
  | makeWritable => exact h
  | makeWritableAndClear => exact hP.shape h s.index.arena.sameShape_clear

theorem run_lasts (hs : s.Faithful order filter) (hP : Arena.Lasts order filter P)
    (h : P s.index.arena) (operations : List (Operation K V)) :
    P (s.run operations).index.arena := by
  induction operations generalizing s with
  | nil => exact h
  | cons operation rest ih => exact ih (hs.step operation) (hs.step_lasts hP h operation)

end Faithful

end Session

end Downset

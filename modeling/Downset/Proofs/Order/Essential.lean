import Downset.Proofs.Order.Safety
import Mathlib.Data.Set.Card

/-!
# Essential steps

A step is essential if it is the only way between its ends, or leads back to where it began. Each
step is judged by all others, so that of two ways around a cycle each may make the steps of the
other look superfluous. Where no two different points lead to each other this cannot happen, and
the essential steps lead wherever all steps lead: a step that is not essential is replaced by ways
between points that lie closer together.
-/

namespace Downset

open Relation

variable {α : Type} {next next' : α → List α} {a b c d : α}

/-- A way to another point leaves its start for good at some step. -/
theorem Reaches.exists_step_of_ne (h : Reaches next a b) (hne : a ≠ b) :
    ∃ c ∈ next a, c ≠ a ∧ Reaches next c b := by
  induction h using ReflTransGen.head_induction_on with
  | refl => exact absurd rfl hne
  | @head a c step rest ih =>
    by_cases heq : c = a
    · subst heq
      exact ih hne
    · exact ⟨c, step, heq, rest⟩

theorem Reaches.eq_of_nil (h : Reaches next a b) (hnil : next a = []) : a = b := by
  rcases h.cases_head with rfl | ⟨c, step, _⟩
  · rfl
  · rw [hnil] at step
    cases step

/-- The different points between two points do not lead to each other. -/
def Untangled (next : α → List α) (a b : α) : Prop :=
  ∀ c d, Reaches next a c → Reaches next c d → Reaches next d c → Reaches next d b → c = d

theorem Untangled.narrow (h : Untangled next a b) (hac : Reaches next a c)
    (hdb : Reaches next d b) : Untangled next c d :=
  fun x y hx hxy hyx hy => h x y (hac.trans hx) hxy hyx (hy.trans hdb)

/-- The points on ways from the first point to the second. -/
def between (next : α → List α) (a b : α) : Set α := {c | Reaches next a c ∧ Reaches next c b}

theorem between_subset (hac : Reaches next a c) (hdb : Reaches next d b) :
    between next c d ⊆ between next a b :=
  fun _ hx => ⟨hac.trans hx.1, hx.2.trans hdb⟩

/-- If each step to another point is kept or leads past a third point, then the steps that are
kept lead from a point to another, as long as the points between are untangled. -/
theorem Reaches.of_detours
    (hkept : ∀ a, ∀ b ∈ next a, a ≠ b →
      b ∈ next' a ∨ ∃ c, c ≠ a ∧ c ≠ b ∧ Reaches next a c ∧ Reaches next c b)
    (h : Untangled next a b) (hfinite : (between next a b).Finite) (hab : Reaches next a b) :
    Reaches next' a b := by
  -- by induction on how many points lie between
  induction hsize : (between next a b).ncard using Nat.strongRecOn generalizing a b with
  | ind size ih =>
    subst hsize
    have hcloser : ∀ c d, Reaches next a c → Reaches next c d → Reaches next d b →
        (∃ x ∈ between next a b, x ∉ between next c d) → Reaches next' c d := by
      rintro c d hac hcd hdb ⟨x, hx, hnot⟩
      have hsub := between_subset hac hdb
      have hlt : (between next c d).ncard < (between next a b).ncard :=
        Set.ncard_lt_ncard ⟨hsub, fun hle => hnot (hle hx)⟩ hfinite
      exact ih _ hlt (h.narrow hac hdb) (hfinite.subset hsub) hcd rfl
    by_cases hne : a = b
    · exact hne ▸ .refl
    obtain ⟨c, hstep, hca, hcb⟩ := hab.exists_step_of_ne hne
    have hac : Reaches next a c := .single hstep
    have ha : a ∈ between next a b := ⟨.refl, hab⟩
    have hb : b ∈ between next a b := ⟨hab, .refl⟩
    rcases hkept a c hstep (Ne.symm hca) with hkeep | ⟨x, hxa, hxc, hax, hxc'⟩
    · refine .head hkeep (hcloser c b hac hcb .refl ⟨a, ha, ?_⟩)
      rintro ⟨hback, _⟩
      exact hca (h a c .refl hac hback hcb).symm
    · have hxb : Reaches next x b := hxc'.trans hcb
      have hlow : Reaches next' a x := by
        refine hcloser a x .refl hax hxb ⟨b, hb, ?_⟩
        rintro ⟨_, hback⟩
        have hsame := h x b hax hxb hback .refl
        subst hsame
        exact hxc (h c x hac hcb hxc' .refl).symm
      have hhigh : Reaches next' x b := by
        refine hcloser x b hax hxb .refl ⟨a, ha, ?_⟩
        rintro ⟨hback, _⟩
        exact hxa (h a x .refl hax hback hxb).symm
      exact hlow.trans hhigh

section Essential

variable [DecidableEq α]

/-- All steps but that from the first point to the second. -/
def without (next : α → List α) (a b : α) : α → List α :=
  fun c => (next c).filter fun d => decide (¬ (c = a ∧ d = b))

theorem mem_without : d ∈ without next a b c ↔ d ∈ next c ∧ ¬ (c = a ∧ d = b) := by
  rw [without, List.mem_filter, decide_eq_true_eq]

/-- A step that leads back to its start or is the only way between its ends. -/
def Essential (next : α → List α) (a b : α) : Prop :=
  b ∈ next a ∧ (a = b ∨ ¬ Reaches (without next a b) a b)

/-- An essential step that is still there when others were taken away is as essential as before,
since fewer steps offer fewer detours. -/
theorem Essential.of_mem (h : Essential next a b) (hless : ∀ a, ∀ b ∈ next' a, b ∈ next a)
    (hmem : b ∈ next' a) : Essential next' a b := by
  refine ⟨hmem, h.2.imp_right fun hnone hother => hnone (ReflTransGen.mono ?_ _ _ hother)⟩
  intro c d hd
  obtain ⟨hstep, hnot⟩ := mem_without.1 hd
  exact mem_without.2 ⟨hless c d hstep, hnot⟩

theorem exists_detour (h : Reaches (without next a b) a b) (hne : a ≠ b) :
    ∃ c, c ≠ a ∧ c ≠ b ∧ Reaches next a c ∧ Reaches next c b := by
  have hless : ∀ c, ∀ d ∈ without next a b c, d ∈ next c := fun c d hd => (mem_without.1 hd).1
  obtain ⟨c, hstep, hca, hcb⟩ := h.exists_step_of_ne hne
  obtain ⟨hnext, hnot⟩ := mem_without.1 hstep
  exact ⟨c, hca, fun heq => hnot ⟨rfl, heq⟩, .single hnext, ReflTransGen.mono hless _ _ hcb⟩

variable (hnext : ∀ a b, b ∈ next' a ↔ Essential next a b)

include hnext

theorem Reaches.of_essential (h : Reaches next' a b) : Reaches next a b :=
  ReflTransGen.mono (fun a b hb => ((hnext a b).1 hb).1) _ _ h

theorem OnCycle.of_essential (h : OnCycle next' a) : OnCycle next a :=
  TransGen.mono (fun a b hb => ((hnext a b).1 hb).1) _ _ h

/-- Among the essential steps each is essential. -/
theorem essential_iff_of_essential : Essential next' a b ↔ b ∈ next' a := by
  refine ⟨fun h => h.1, fun hmem => ((hnext a b).1 hmem).of_mem ?_ hmem⟩
  exact fun c d hd => ((hnext c d).1 hd).1

theorem mem_self_iff_of_essential : a ∈ next' a ↔ a ∈ next a :=
  (hnext a a).trans (and_iff_left (.inl rfl))

theorem Reaches.essential (h : Untangled next a b) (hfinite : (between next a b).Finite)
    (hab : Reaches next a b) : Reaches next' a b := by
  refine hab.of_detours (fun a b hstep hne => ?_) h hfinite
  by_cases hother : Reaches (without next a b) a b
  · exact .inr (exists_detour hother hne)
  · exact .inl ((hnext a b).2 ⟨hstep, .inr hother⟩)

/-- From the points on the ways around from the point only one step each leads back to it. -/
def SingleRound (next : α → List α) (a : α) : Prop :=
  ∀ c d e, Reaches next a c → d ∈ next c → e ∈ next c → Reaches next d a → Reaches next e a → d = e

/-- A cycle without branches is kept. -/
theorem OnCycle.essential (h : SingleRound next a) (hcycle : OnCycle next a) : OnCycle next' a := by
  have hkept : ∀ c d, Reaches next a c → d ∈ next c → Reaches next d a → d ∈ next' c := by
    intro c d hac hstep hback
    refine (hnext c d).2 ⟨hstep, or_iff_not_imp_left.2 fun hne hother => ?_⟩
    obtain ⟨e, hedge, _, hed⟩ := hother.exists_step_of_ne hne
    obtain ⟨hfirst, hnot⟩ := mem_without.1 hedge
    have hless : ∀ x, ∀ y ∈ without next c d x, y ∈ next x := fun x y hy => (mem_without.1 hy).1
    have heq := h c e d hac hfirst hstep ((ReflTransGen.mono hless _ _ hed).trans hback) hback
    exact hnot ⟨rfl, heq⟩
  have haround : ∀ c, Reaches next a c → Reaches next c a → Reaches next' c a := by
    intro c hac hca
    induction hca using ReflTransGen.head_induction_on with
    | refl => exact .refl
    | head step rest ih => exact .head (hkept _ _ hac step rest) (ih (hac.tail step))
  obtain ⟨b, hstep, hback⟩ := TransGen.head'_iff.1 hcycle
  exact .head' (hkept a b .refl hstep hback) (haround b (.single hstep) hback)

end Essential

end Downset

import Downset.Proofs.Arena.Union
import Downset.Proofs.Order.Frontier
import Mathlib.Data.List.Basic

/-!
# What lies beyond a key

The plain recursion for the nearest accepted keys: an accepted key is one itself, and beyond any
other key lies what lies beyond its successors. Nothing is remembered, so that a key to which
several ways lead is looked at once for each of them. Like every walk it carries the path on which
it stands, but at or above a safe key it never meets a key of a path that leads there, and so the
path makes no difference.
-/

namespace Downset.KeyOrder

variable {K α : Type} {order : KeyOrder K} {filter : KeyFilter K} {path path' : List K}
  {key next : K}

/-- Single steps lead up the path, which lists the latest key first, and from there to the key. -/
def Leads (order : KeyOrder K) (path : List K) (key : K) : Prop :=
  (key :: path).IsChain fun upper lower => upper ∈ order.successors lower

theorem leads_nil : order.Leads [] key := .singleton key

theorem Leads.cons (h : order.Leads path key) (hnext : next ∈ order.successors key) :
    order.Leads (key :: path) next :=
  .cons_cons hnext h

theorem Leads.above (h : order.Leads path key) : ∀ p ∈ path, Above order.successors p key := by
  induction path generalizing key with
  | nil => exact fun p hp => absurd hp List.not_mem_nil
  | cons first rest ih =>
    obtain ⟨hstep, hrest⟩ := List.isChain_cons_cons.1 h
    exact above_cons (ih hrest) hstep

/-- No key of the path lies at or above the key. -/
def Clear (order : KeyOrder K) (path : List K) (key : K) : Prop :=
  ∀ p ∈ path, ¬ Reaches order.successors key p

theorem Leads.clear (h : order.Leads path key) (hsafe : order.Safe key) : order.Clear path key := by
  intro p hp hreaches
  exact hsafe p hreaches ((h.above p hp).trans_left hreaches)

theorem Clear.not_mem (h : order.Clear path key) : key ∉ path := fun hmem => h key hmem .refl

theorem Clear.cons (h : order.Clear path key) (hsafe : order.Safe key)
    (hnext : next ∈ order.successors key) : order.Clear (key :: path) next := by
  intro p hp hreaches
  rcases List.mem_cons.1 hp with rfl | hp
  · exact hsafe p .refl (.head' hnext hreaches)
  · exact h p hp (.head hnext hreaches)

variable [DecidableEq K]

/-- What holds of a safe key whenever it holds of its successors holds of every safe key. -/
theorem Safe.induction {motive : (key : K) → order.Safe key → Prop}
    (step : ∀ key (h : order.Safe key),
      (∀ next (hnext : next ∈ order.successors key), motive next (h.of_mem hnext)) → motive key h)
    {key : K} (h : order.Safe key) : motive key h := by
  induction hleft : order.extent [] key using Nat.strongRecOn generalizing key with
  | ind left ih =>
    subst hleft
    exact step key h fun next hnext => ih _ (h.extent_lt (.single hnext)) (h.of_mem hnext) rfl

variable [DecidableEq α] {node : K → α} {m : α}

/-- The nodes of the nearest accepted keys at or above a key, by way of a path that leads there. -/
def beyondFrom (order : KeyOrder K) (filter : KeyFilter K) (node : K → α) (path : List K)
    (key : K) : OrderedSet α :=
  if _ : key ∈ path then ∅
  else if filter.accepts key then .singleton (node key)
  else
    (∅ : OrderedSet α).unionAll ((order.successors key).attach.map fun next =>
      beyondFrom order filter node (key :: path) next.1)
termination_by order.extent path key
decreasing_by exact extent_lt ‹key ∉ path› next.2

/-- The nodes of the nearest accepted keys at or above a key. -/
def beyond (order : KeyOrder K) (filter : KeyFilter K) (node : K → α) (key : K) : OrderedSet α :=
  order.beyondFrom filter node [] key

theorem beyondFrom_of_not_mem (hkey : key ∉ path) : order.beyondFrom filter node path key =
    if filter.accepts key then .singleton (node key)
    else (∅ : OrderedSet α).unionAll
      ((order.successors key).map (order.beyondFrom filter node (key :: path))) := by
  rw [beyondFrom, dif_neg hkey, List.attach_map_val]

/-- As long as no key of the path lies above, the path makes no difference. -/
theorem beyondFrom_eq_beyondFrom (hsafe : order.Safe key) (h : order.Clear path key)
    (h' : order.Clear path' key) :
    order.beyondFrom filter node path key = order.beyondFrom filter node path' key := by
  induction hsafe using Safe.induction generalizing path path' with
  | step key hsafe ih =>
    rw [beyondFrom_of_not_mem h.not_mem, beyondFrom_of_not_mem h'.not_mem]
    congr 2
    apply List.map_congr_left
    intro next hnext
    exact ih next hnext (h.cons hsafe hnext) (h'.cons hsafe hnext)

/-- The plain recursion: an accepted key stops it, and any other key is passed over. -/
theorem beyond_eq (hsafe : order.Safe key) : order.beyond filter node key =
    if filter.accepts key then .singleton (node key)
    else (∅ : OrderedSet α).unionAll ((order.successors key).map (order.beyond filter node)) := by
  have hclear : ∀ key, order.Clear [] key := fun _ p hp => absurd hp List.not_mem_nil
  rw [beyond, beyondFrom_of_not_mem List.not_mem_nil]
  congr 2
  apply List.map_congr_left
  intro next hnext
  exact beyondFrom_eq_beyondFrom (hsafe.of_mem hnext) ((hclear key).cons hsafe hnext) (hclear next)

theorem mem_beyond (hsafe : order.Safe key) : m ∈ order.beyond filter node key ↔
    ∃ other, order.Frontier filter key other ∧ node other = m := by
  induction hsafe using Safe.induction with
  | step key hsafe ih =>
    rw [beyond_eq hsafe]
    cases hkey : filter.accepts key with
    | true =>
      rw [if_pos rfl, OrderedSet.mem_singleton]
      constructor
      · rintro rfl
        exact ⟨key, .here hkey, rfl⟩
      · rintro ⟨other, hother, rfl⟩
        rw [hother.eq_of_accepts hkey]
    | false =>
      rw [if_neg Bool.false_ne_true, OrderedSet.mem_unionAll]
      constructor
      · rintro (hm | ⟨found, hfound, hm⟩)
        · exact absurd hm (OrderedSet.not_mem_empty m)
        · obtain ⟨next, hnext, rfl⟩ := List.mem_map.1 hfound
          obtain ⟨other, hother, hnode⟩ := (ih next hnext).1 hm
          exact ⟨other, .past hkey hnext hother, hnode⟩
      · rintro ⟨other, hother, hnode⟩
        obtain ⟨next, hnext, hrest⟩ := (frontier_iff_nearest hkey).1 hother
        exact .inr ⟨_, List.mem_map_of_mem hnext, (ih next hnext).2 ⟨other, hrest, hnode⟩⟩

end Downset.KeyOrder

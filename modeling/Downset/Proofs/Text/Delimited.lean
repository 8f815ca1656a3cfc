import Downset.Text.Characters
import Mathlib.Data.List.Basic
import Mathlib.Logic.Function.Basic

/-!
# Where texts end

A run of characters of one kind ends where the first character of another kind stands. So what is
trimmed from a text that has no blanks at its own ends are the blanks around it.

What is written may be followed by anything: if it shows by itself where it ends, then it can be told
from the whole text, and so can what follows. Parts of this kind can be put together. A list of them
needs a character behind it with which none of them begins.
-/

namespace Downset.Text

section Runs

variable {before text after rest : List Char}

theorem span_append {p : Char → Bool} (htext : ∀ c ∈ text, p c = true)
    (hrest : ∀ c ∈ rest.head?, p c = false) :
    (text ++ rest).takeWhile p = text ∧ (text ++ rest).dropWhile p = rest := by
  rw [List.takeWhile_append_of_pos htext, List.dropWhile_append_of_pos htext]
  cases rest with
  | nil => simp
  | cons c rest => simp [hrest c rfl]

/-- There is something in the text, and no blank at either end. -/
structure Trimmed (text : List Char) : Prop where
  ne_nil : text ≠ []
  first : ∀ c ∈ text.head?, isBlank c = false
  last : ∀ c ∈ text.getLast?, isBlank c = false

theorem Trimmed.of_all (hne : text ≠ []) (h : (text.all fun c => !isBlank c) = true) :
    Trimmed text := by
  have hall : ∀ c ∈ text, isBlank c = false := by
    simpa using h
  exact ⟨hne, fun c hc => hall c (List.mem_of_mem_head? hc),
    fun c hc => hall c (List.mem_of_mem_getLast? hc)⟩

theorem Trimmed.append (h : Trimmed text) (middle : List Char) (h' : Trimmed rest) :
    Trimmed (text ++ middle ++ rest) where
  ne_nil := by simp [h.ne_nil]
  first c hc := by
    rw [List.append_assoc, List.head?_append_of_ne_nil _ h.ne_nil] at hc
    exact h.first c hc
  last c hc := by
    rw [List.getLast?_append_of_ne_nil _ h'.ne_nil] at hc
    exact h'.last c hc

theorem trim_eq (hbefore : ∀ c ∈ before, isBlank c = true) (hafter : ∀ c ∈ after, isBlank c = true)
    (h : Trimmed text) : trim (before ++ text ++ after) = text := by
  have hfirst : ∀ c ∈ (text ++ after).head?, isBlank c = false := by
    rw [List.head?_append_of_ne_nil _ h.ne_nil]
    exact h.first
  have hafter' : ∀ c ∈ after.reverse, isBlank c = true :=
    fun c hc => hafter c (List.mem_reverse.1 hc)
  have hlast : ∀ c ∈ text.reverse.head?, isBlank c = false := by
    rw [List.head?_reverse]
    exact h.last
  rw [trim, List.append_assoc, (span_append hbefore hfirst).2, List.reverse_append,
    (span_append hafter' hlast).2, List.reverse_reverse]

end Runs

variable {α β : Type} {write : α → List Char} {write' : β → List Char}

/-- What is written can be told from any text that begins with it, and so can the rest. -/
def Delimited (write : α → List Char) : Prop :=
  ∀ ⦃a b : α⦄ ⦃rest rest' : List Char⦄, write a ++ rest = write b ++ rest' → a = b ∧ rest = rest'

namespace Delimited

theorem injective (h : Delimited write) : Function.Injective write := by
  intro a b hab
  exact (h (congrArg (· ++ []) hab)).1

theorem comp {f : β → α} (h : Delimited write) (hf : Function.Injective f) :
    Delimited fun b => write (f b) := by
  intro a b rest rest' heq
  obtain ⟨hab, hrest⟩ := h heq
  exact ⟨hf hab, hrest⟩

theorem pair (h : Delimited write) (h' : Delimited write') :
    Delimited fun p : α × β => write p.1 ++ write' p.2 := by
  rintro ⟨a, b⟩ ⟨a', b'⟩ rest rest' heq
  simp only [List.append_assoc] at heq
  obtain ⟨rfl, htail⟩ := h heq
  obtain ⟨rfl, hrest⟩ := h' htail
  exact ⟨rfl, hrest⟩

theorem append (h : Delimited write) (after : List Char) : Delimited fun a => write a ++ after := by
  intro a b rest rest' heq
  simp only [List.append_assoc] at heq
  obtain ⟨hab, hrest⟩ := h heq
  exact ⟨hab, List.append_cancel_left hrest⟩

theorem append_left (before : List Char) (h : Delimited write) :
    Delimited fun a => before ++ write a := by
  intro a b rest rest' heq
  simp only [List.append_assoc] at heq
  exact h (List.append_cancel_left heq)

/-- Up to the first character of one kind the text can be told. -/
theorem of_stop (stop : Char) (hwrite : Function.Injective write) (h : ∀ a, stop ∉ write a) :
    Delimited fun a => write a ++ [stop] := by
  intro a b rest rest' heq
  have hspan : ∀ (a : α) (rest : List Char),
      (write a ++ stop :: rest).takeWhile (· != stop) = write a ∧
        (write a ++ stop :: rest).dropWhile (· != stop) = stop :: rest := by
    intro a rest
    apply span_append
    · intro c hc
      simp [ne_of_mem_of_not_mem hc (h a)]
    · simp
  simp only [List.append_assoc, List.singleton_append] at heq
  have htake := (hspan a rest).1
  have hdrop := (hspan a rest).2
  rw [heq, (hspan b rest').1] at htake
  rw [heq, (hspan b rest').2] at hdrop
  exact ⟨hwrite htake.symm, (List.cons.inj hdrop).2.symm⟩

/-- Things of one kind, up to a character with which none of them begins. -/
theorem list (stop : Char) (h : Delimited write) (hfirst : ∀ a, ∃ c tail, write a = c :: tail ∧ c ≠ stop) :
    Delimited fun items : List α => items.flatMap write ++ [stop] := by
  intro items others rest rest' heq
  induction items generalizing others with
  | nil =>
    cases others with
    | nil => simpa using heq
    | cons b others =>
      obtain ⟨c, tail, hc, hne⟩ := hfirst b
      simp [hc, hne.symm] at heq
  | cons a items ih =>
    cases others with
    | nil =>
      obtain ⟨c, tail, hc, hne⟩ := hfirst a
      simp [hc, hne] at heq
    | cons b others =>
      simp only [List.flatMap_cons, List.append_assoc] at heq ih
      obtain ⟨rfl, htail⟩ := h heq
      obtain ⟨rfl, hrest⟩ := ih htail
      exact ⟨rfl, hrest⟩

end Delimited

end Downset.Text

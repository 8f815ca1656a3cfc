import Downset.Proofs.Text.Delimited
import Downset.Text.Quoted
import Mathlib.Data.List.Basic
import Mathlib.Tactic.SplitIfs

/-!
# Quoted texts can be told apart

No two numbers have the same digits, and no two characters the same escape: a short escape has one
name for each character, a long one the code point between braces, and a character that stands for
itself is no backslash. The only bare quote is the closing one. So a quoted text shows where it ends.
-/

namespace Downset.Text

/-! ## Digits -/

section Digits

variable {base : Nat}

theorem digitChar_injOn {m n : Nat} (hm : m < 16) (hn : n < 16)
    (h : Nat.digitChar m = Nat.digitChar n) : m = n := by
  have hall : ∀ m n : Fin 16, Nat.digitChar m = Nat.digitChar n → m = n := by decide
  exact congrArg Fin.val (hall ⟨m, hm⟩ ⟨n, hn⟩ h)

theorem toDigits_injective (hbase : 1 < base) (hsmall : base ≤ 16) :
    Function.Injective (Nat.toDigits base) := by
  intro m
  induction m using Nat.strongRecOn with
  | ind m ih =>
    intro n h
    rw [@Nat.toDigits_eq_if base m hbase, @Nat.toDigits_eq_if base n hbase] at h
    split_ifs at h with hm hn hn
    · exact digitChar_injOn (by omega) (by omega) (List.cons.inj h).1
    · simp [List.singleton_eq_append_iff] at h
    · simp [List.append_eq_singleton_iff] at h
    · obtain ⟨hhigh, hlow⟩ := List.append_inj' h rfl
      have hdiv : m / base = n / base := ih _ (Nat.div_lt_self (by omega) hbase) hhigh
      have hmod : m % base = n % base := by
        have hm' := Nat.mod_lt m (by omega : 0 < base)
        have hn' := Nat.mod_lt n (by omega : 0 < base)
        exact digitChar_injOn (by omega) (by omega) (List.cons.inj hlow).1
      rw [← Nat.div_add_mod m base, ← Nat.div_add_mod n base, hdiv, hmod]

theorem exists_digitChar {n : Nat} {c : Char} (hbase : 1 < base) (h : c ∈ Nat.toDigits base n) :
    ∃ k < base, c = Nat.digitChar k := by
  induction n using Nat.strongRecOn with
  | ind n ih =>
    rw [Nat.toDigits_eq_if hbase] at h
    split_ifs at h with hn
    · exact ⟨n, hn, List.mem_singleton.1 h⟩
    · rcases List.mem_append.1 h with h | h
      · exact ih _ (Nat.div_lt_self (by omega) hbase) h
      · exact ⟨n % base, Nat.mod_lt n (by omega), List.mem_singleton.1 h⟩

/-- A number is told by its digits, up to a character that is no digit. -/
theorem delimited_toDigits {stop : Char} (hbase : 1 < base) (hsmall : base ≤ 16)
    (hstop : ∀ k < 16, Nat.digitChar k ≠ stop) :
    Delimited fun n => Nat.toDigits base n ++ [stop] := by
  apply Delimited.of_stop stop (toDigits_injective hbase hsmall)
  intro n hmem
  obtain ⟨k, hk, heq⟩ := exists_digitChar hbase hmem
  exact hstop k (by omega) heq.symm

end Digits

/-! ## Escapes -/

/-- The escapes of two characters: what stands behind the backslash, and what it stands for. -/
def shortEscapes : List (Char × Char) :=
  [('0', '\x00'), ('t', '\t'), ('n', '\n'), ('r', '\r'), ('"', '"'), ('\\', '\\')]

inductive EscapedBy : Char → List Char → Prop
  | short {name c : Char} (escape : (name, c) ∈ shortEscapes) : EscapedBy c ['\\', name]
  | long (c : Char) : EscapedBy c (['\\', 'u', '{'] ++ Nat.toDigits 16 c.toNat ++ ['}'])
  | plain {c : Char} (backslash : c ≠ '\\') (quote : c ≠ '"') (line : c ≠ '\n') : EscapedBy c [c]

theorem escapedBy_escape (c : Char) : EscapedBy c (escape c) := by
  unfold escape
  split_ifs with hnull htab hline hreturn hquote hbackslash hunprintable
  · subst hnull
    exact .short (by decide)
  · subst htab
    exact .short (by decide)
  · subst hline
    exact .short (by decide)
  · subst hreturn
    exact .short (by decide)
  · subst hquote
    exact .short (by decide)
  · subst hbackslash
    exact .short (by decide)
  · exact .long c
  · exact .plain hbackslash hquote hline

theorem shortEscapes_inj {name c c' : Char} (h : (name, c) ∈ shortEscapes)
    (h' : (name, c') ∈ shortEscapes) : c = c' := by
  have hall : ∀ p ∈ shortEscapes, ∀ q ∈ shortEscapes, p.1 = q.1 → p.2 = q.2 := by decide
  exact hall _ h _ h' rfl

theorem shortEscapes_ne_long {c : Char} : ('u', c) ∉ shortEscapes := by
  have hall : ∀ p ∈ shortEscapes, p.1 ≠ 'u' := by decide
  exact fun h => hall _ h rfl

theorem EscapedBy.inj {c c' : Char} {text text' rest rest' : List Char} (h : EscapedBy c text)
    (h' : EscapedBy c' text') (heq : text ++ rest = text' ++ rest') : c = c' ∧ rest = rest' := by
  cases h with
  | short escape =>
    cases h' with
    | short escape' =>
      simp only [List.cons_append, List.nil_append, List.cons.injEq, true_and] at heq
      obtain ⟨rfl, hrest⟩ := heq
      exact ⟨shortEscapes_inj escape escape', hrest⟩
    | long =>
      simp only [List.cons_append, List.nil_append, List.cons.injEq, true_and] at heq
      obtain ⟨rfl, _⟩ := heq
      exact absurd escape shortEscapes_ne_long
    | plain backslash => exact absurd (List.cons.inj heq).1.symm backslash
  | long =>
    cases h' with
    | short escape' =>
      simp only [List.cons_append, List.nil_append, List.cons.injEq, true_and] at heq
      obtain ⟨rfl, _⟩ := heq
      exact absurd escape' shortEscapes_ne_long
    | long =>
      simp only [List.cons_append, List.nil_append, List.cons.injEq, true_and] at heq
      have hdigits : Delimited fun n => Nat.toDigits 16 n ++ ['}'] :=
        delimited_toDigits (by decide) (by decide) (by decide)
      obtain ⟨hcode, hrest⟩ := hdigits heq
      exact ⟨Char.toNat_inj.1 hcode, hrest⟩
    | plain backslash => exact absurd (List.cons.inj heq).1.symm backslash
  | plain backslash =>
    cases h' with
    | short | long => exact absurd (List.cons.inj heq).1 backslash
    | plain => exact ⟨(List.cons.inj heq).1, (List.cons.inj heq).2⟩

theorem delimited_escape : Delimited escape :=
  fun c c' _ _ heq => (escapedBy_escape c).inj (escapedBy_escape c') heq

theorem EscapedBy.exists_first {c : Char} {text : List Char} (h : EscapedBy c text) :
    ∃ first tail, text = first :: tail ∧ first ≠ '"' := by
  cases h with
  | short | long => exact ⟨'\\', _, rfl, by decide⟩
  | plain _ quote => exact ⟨c, [], rfl, quote⟩

theorem EscapedBy.not_mem_line {c : Char} {text : List Char} (h : EscapedBy c text) :
    '\n' ∉ text := by
  cases h with
  | @short name _ escape =>
    have hall : ∀ p ∈ shortEscapes, p.1 ≠ '\n' := by decide
    simp [(hall _ escape).symm]
  | long =>
    have hdigits : '\n' ∉ Nat.toDigits 16 c.toNat := by
      intro hmem
      obtain ⟨k, hk, heq⟩ := exists_digitChar (by decide) hmem
      exact Nat.digitChar_ne '\n' (by decide) heq.symm
    simp [hdigits]
  | plain _ _ line => simp [line.symm]

/-- A quoted text shows where it ends. -/
theorem delimited_quoted : Delimited quoted := by
  have hbody : Delimited fun text : List Char => text.flatMap escape ++ ['"'] :=
    delimited_escape.list '"' fun c => (escapedBy_escape c).exists_first
  exact hbody.append_left ['"']

/-- No line ends inside a quoted text. -/
theorem not_mem_quoted (text : List Char) : '\n' ∉ quoted text := by
  have hescape : ∀ c, '\n' ∉ escape c := fun c => (escapedBy_escape c).not_mem_line
  simp [quoted, hescape]

end Downset.Text

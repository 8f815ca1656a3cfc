import Downset.Proofs.Json.Rearranged
import Downset.Scenario.Reading

/-!
# Scenarios whose fields stand in another order

What is read as a step or as a scenario stays the same when fields change places, within any object
of the document, and what is rejected stays rejected.
-/

namespace Downset

open Json

namespace Step

variable {fields fields' : List Field}

theorem ignoresOrder_readKey? : IgnoresOrder readKey? := ignoresOrder_text?.nullable?

theorem putOfFields?_rearranged (h : (Document.object fields).Rearranged (.object fields')) :
    putOfFields? fields = putOfFields? fields' := by
  rw [putOfFields?, putOfFields?, all_names_rearranged h Option.isSome,
    optional?_rearranged h ignoresOrder_readKey?, required?_rearranged h ignoresOrder_text?]

theorem getOfFields?_rearranged (h : (Document.object fields).Rearranged (.object fields')) :
    getOfFields? fields = getOfFields? fields' := by
  rw [getOfFields?, getOfFields?, all_names_rearranged h Option.isSome,
    optional?_rearranged h ignoresOrder_readKey?]

theorem ignoresOrder_putOfDocument? : IgnoresOrder putOfDocument? := by
  intro document other h
  cases h with
  | same => rfl
  | object order names each => exact putOfFields?_rearranged (.object order names each)
  | array each =>
    match each with
    | .nil | .cons _ .nil | .cons _ (.cons _ (.cons _ _)) => rfl
    | .cons hkey (.cons hvalue .nil) =>
      rw [putOfDocument?, putOfDocument?, ignoresOrder_readKey? _ _ hkey,
        ignoresOrder_text? _ _ hvalue]

theorem ignoresOrder_getOfDocument? : IgnoresOrder getOfDocument? := by
  intro document other h
  cases h with
  | same => rfl
  | object order names each => exact getOfFields?_rearranged (.object order names each)
  | array each =>
    match each with
    | .nil | .cons _ (.cons _ _) => rfl
    | .cons hkey .nil => rw [getOfDocument?, getOfDocument?, ignoresOrder_readKey? _ _ hkey]

theorem ignoresOrder_content {name : Literal} :
    IgnoresOrder fun content => ofDocument? (.object [(name, content)]) := by
  intro content other h
  match name with
  | none => rfl
  | some name =>
    simp only [ofDocument?, ignoresOrder_putOfDocument? _ _ h, ignoresOrder_getOfDocument? _ _ h]
    cases h <;> rfl

/-- A step is an object with one field. -/
theorem ofObject?_rearranged (h : (Document.object fields).Rearranged (.object fields')) :
    ofDocument? (.object fields) = ofDocument? (.object fields') := by
  have hlength := length_fields_rearranged h
  cases fields with
  | nil =>
    obtain rfl : fields' = [] := List.length_eq_zero_iff.1 hlength.symm
    rfl
  | cons field rest =>
    cases fields' with
    | nil => cases hlength
    | cons field' rest' =>
      cases rest with
      | nil =>
        obtain rfl : rest' = [] := List.length_eq_zero_iff.1 (Nat.succ.inj hlength).symm
        obtain ⟨name, content⟩ := field
        obtain ⟨rfl, hcontent⟩ := rearranged_single h
        exact ignoresOrder_content content field'.2 hcontent
      | cons =>
        cases rest' with
        | nil => cases Nat.succ.inj hlength
        | cons => simp [ofDocument?]

theorem ignoresOrder_ofDocument? : IgnoresOrder ofDocument? := by
  intro document other h
  cases h with
  | same | array => rfl
  | object order names each => exact ofObject?_rearranged (.object order names each)

end Step

namespace Scenario

theorem ofFields?_rearranged {fields' : List Field}
    (h : (Document.object fields).Rearranged (.object fields')) :
    ofFields? fields = ofFields? fields' := by
  rw [ofFields?, ofFields?, all_names_rearranged h fun name => name.any fieldNames.contains,
    optional?_rearranged h ignoresOrder_text?.list?.list?,
    optional?_rearranged h ignoresOrder_textPair?.list?,
    optional?_rearranged h ignoresOrder_text?.list?.nullable?,
    optional?_rearranged h ignoresOrder_text?.nullable?,
    optional?_rearranged h Step.ignoresOrder_ofDocument?.list?]

theorem ignoresOrder_ofDocument? : IgnoresOrder ofDocument? := by
  intro document other h
  cases h with
  | same => rfl
  | object order names each => exact ofFields?_rearranged (.object order names each)
  | array each => rw [ofDocument?, ofDocument?, each.length_eq, ofFields?_rearranged (rearranged_zip each)]

end Scenario

end Downset

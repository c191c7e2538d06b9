import SchemaMigration.Migration.Scaffold
import SchemaMigration.Proofs.Schema.WellFormed

/-!
This module contains the names that a migration may have, and that the model which such a name
suggests has a word as its name that is not reserved.
-/

namespace SchemaMigration

namespace Byte

theorem isLetter_iff {b : UInt8} :
    isLetter b = true ↔ (97 ≤ b.toNat ∧ b.toNat ≤ 122) ∨ (65 ≤ b.toNat ∧ b.toNat ≤ 90) := by
  rw [isLetter, Bool.or_eq_true, isLower_iff, isUpper_iff]

theorem isLetter_toUpper (b : UInt8) : isLetter (toUpper b) = isLetter b := by
  rw [Bool.eq_iff_iff, isLetter_iff, isLetter_iff, toNat_toUpper]
  split
  . next hlower =>
    rw [isLower_iff] at hlower
    omega
  . rfl

theorem isDigit_toUpper (b : UInt8) : isDigit (toUpper b) = isDigit b := by
  rw [Bool.eq_iff_iff, isDigit_iff, isDigit_iff, toNat_toUpper]
  split
  . next hlower =>
    rw [isLower_iff] at hlower
    omega
  . rfl

end Byte

namespace Migration

open Schema (IsName IsWord isReservedWord)

variable {name : Text}

structure Accepted (name : Text) : Prop where
  start : ∃ b rest, name = b :: rest ∧ isAlphanumeric b = true
  bytes : ∀ b ∈ name, isNameByte b = true
  length : name.length ≤ maxNameLength

theorem nameFault?_eq_none_iff : nameFault? name = none ↔ Accepted name := by
  unfold nameFault?
  split
  . constructor
    . intro h
      cases h
    . rintro ⟨⟨_, _, heq, _⟩, _, _⟩
      cases heq
  . next first rest =>
    simp only [Bool.not_eq_true', ite_eq_iff, reduceCtorEq, and_false, false_or, Nat.not_lt,
      Bool.not_eq_false, and_true]
    constructor
    . rintro ⟨hlength, hbytes, hstart⟩
      exact ⟨⟨first, rest, rfl, hstart⟩, List.all_eq_true.mp hbytes, hlength⟩
    . rintro ⟨⟨b, tail, heq, hstart⟩, hbytes, hlength⟩
      cases heq
      exact ⟨hlength, List.all_eq_true.mpr hbytes, hstart⟩

theorem isAlphanumeric_toUpper (b : UInt8) :
    isAlphanumeric (Byte.toUpper b) = isAlphanumeric b := by
  rw [isAlphanumeric, isAlphanumeric, Byte.isLetter_toUpper, Byte.isDigit_toUpper]

theorem isWordPart_of_isAlphanumeric {b : UInt8} (h : isAlphanumeric b = true) :
    Byte.isWordPart b = true := by
  rw [isAlphanumeric, Bool.or_eq_true] at h
  simp only [Byte.isWordPart, Byte.isWordStart, Bool.or_eq_true]
  exact h.imp (fun hletter => .inl hletter) id

/-- Camel case has letters and digits only. -/
theorem isAlphanumeric_of_mem_camelCase {upperNext : Bool} (h : ∀ b ∈ name, isNameByte b = true) :
    ∀ b ∈ camelCase upperNext name, isAlphanumeric b = true := by
  fun_induction camelCase upperNext name with
  | case1 => nofun
  | case2 _ b rest _ ih => exact ih (List.forall_mem_cons.mp h).2
  | case3 upperNext b rest hseparator ih =>
    obtain ⟨hb, hrest⟩ := List.forall_mem_cons.mp h
    refine List.forall_mem_cons.mpr ⟨?_, ih hrest⟩
    rw [Bool.or_eq_true, not_or] at hseparator
    have hb : isAlphanumeric b = true := by simpa [isNameByte, hseparator] using hb
    split
    . rw [isAlphanumeric_toUpper]
      exact hb
    . exact hb

theorem length_camelCase_le (upperNext : Bool) (name : Text) :
    (camelCase upperNext name).length ≤ name.length := by
  fun_induction camelCase upperNext name with
  | case1 => exact Nat.le_refl 0
  | case2 _ b rest _ ih => exact Nat.le_succ_of_le ih
  | case3 _ b rest _ ih => exact Nat.succ_le_succ ih

/-- No reserved word has the word that repairs names in it. -/
theorem isReservedWord_of_infix {w : Text} (h : ascii "Migration" <:+: w) :
    isReservedWord w = false := by
  rw [isReservedWord, Bool.or_eq_false_iff]
  constructor
  . rw [Schema.isModelKeyword, beq_eq_false_iff_ne]
    intro hlower
    have hlength : w.length = 5 := by
      have hmap : w.lower.length = w.length := List.length_map ..
      rw [← hmap, hlower]
      rfl
    have hle : 9 ≤ w.length := h.length_le
    omega
  . rw [← Bool.not_eq_true]
    intro htype
    obtain ⟨type, rfl⟩ := Schema.exists_name_of_isScalarType htype
    have hmem : byte 'M' ∈ type.name := h.subset (by decide)
    revert hmem
    cases type <;> decide

theorem isWord_append {w t : Text} (hw : IsWord w) (ht : ∀ b ∈ t, Byte.isWordPart b = true) :
    IsWord (w ++ t) := by
  cases w with
  | nil => cases hw
  | cons b rest =>
    refine ⟨hw.1, ?_⟩
    intro c hc
    cases List.mem_append.mp hc with
    | inl hrest => exact hw.2 c hrest
    | inr ht' => exact ht c ht'

theorem isWord_migration : IsWord (ascii "Migration") := ⟨rfl, List.all_eq_true.mp rfl⟩

/-- The word for the model, before it is compared with the reserved words. -/
theorem exists_modelName_eq (h : Accepted name) :
    ∃ word, IsWord word ∧
      (word = camelCase true name ∨ word = ascii "Migration" ++ camelCase true name) ∧
      modelName name = if isReservedWord word then word ++ ascii "Migration" else word := by
  have hparts : ∀ b ∈ camelCase true name, Byte.isWordPart b = true := fun b hb =>
    isWordPart_of_isAlphanumeric (isAlphanumeric_of_mem_camelCase h.bytes b hb)
  obtain ⟨first, rest, rfl, hfirst⟩ := h.start
  have hseparator : (first == byte '_' || first == byte '-') = false := by
    rw [Bool.or_eq_false_iff]
    exact ⟨beq_false_of_class hfirst (by decide), beq_false_of_class hfirst (by decide)⟩
  have hcamel : camelCase true (first :: rest) =
      Byte.toUpper first :: camelCase false rest := by
    simp only [camelCase, hseparator, Bool.false_eq_true, if_false, if_true]
  unfold modelName
  rw [hcamel] at hparts ⊢
  cases hdigit : Byte.isDigit (Byte.toUpper first) with
  | true =>
    simp only [hdigit, if_true]
    exact ⟨_, isWord_append isWord_migration hparts, .inr rfl, rfl⟩
  | false =>
    simp only [hdigit, Bool.false_eq_true, if_false]
    obtain ⟨hstart, hrest⟩ := List.forall_mem_cons.mp hparts
    rw [Byte.isWordPart, hdigit, Bool.or_false] at hstart
    have hword : IsWord (Byte.toUpper first :: camelCase false rest) := ⟨hstart, hrest⟩
    exact ⟨_, hword, .inl rfl, rfl⟩

/-- The model of an accepted name can be named in a schema. -/
theorem isName_modelName (h : Accepted name) : IsName (modelName name) := by
  obtain ⟨word, hword, _, heq⟩ := exists_modelName_eq h
  rw [heq]
  cases hreserved : isReservedWord word with
  | false => exact ⟨hword, hreserved⟩
  | true =>
    have hrepair : ∀ b ∈ ascii "Migration", Byte.isWordPart b = true := List.all_eq_true.mp rfl
    exact ⟨isWord_append hword hrepair, isReservedWord_of_infix (List.suffix_append ..).isInfix⟩

/-- At most one of the two repairs is made. -/
theorem length_modelName_le (h : Accepted name) : (modelName name).length ≤ name.length + 9 := by
  have hcamel := length_camelCase_le true name
  have hrepair : (ascii "Migration").length = 9 := rfl
  obtain ⟨word, _, hword, heq⟩ := exists_modelName_eq h
  rw [heq]
  cases hword with
  | inl hplain =>
    subst hplain
    split
    . rw [List.length_append, hrepair]
      omega
    . omega
  | inr hdigit =>
    subst hdigit
    have hfree := isReservedWord_of_infix
      (List.prefix_append (ascii "Migration") (camelCase true name)).isInfix
    rw [hfree, if_neg Bool.false_ne_true, List.length_append, hrepair]
    omega

end Migration

end SchemaMigration

import SchemaMigration.Proofs.Schema.Lexing
import SchemaMigration.Sql.Quote

/-!
This module contains that statements and sources have the same numbers: a numeric literal is a
number of the schema language, with or without a minus sign.
-/

namespace SchemaMigration.Sql

open Schema

theorem isUnsignedInteger_iff {t : Text} : isUnsignedInteger t = true ↔ IsDigits t := by
  simp [isUnsignedInteger, IsDigits]

theorem isUnsignedInteger_iff_isBareNumber {t : Text} :
    isUnsignedInteger t = true ↔ isBareNumber t = true ∧ byte '.' ∉ t := by
  rw [isUnsignedInteger_iff, isBareNumber_iff]
  constructor
  . intro h
    refine ⟨.inl h, ?_⟩
    intro hdot
    cases h.2 _ hdot
  . rintro ⟨hdigits | ⟨whole, places, rfl, _, _⟩, hdot⟩
    . exact hdigits
    . simp at hdot

def unsignedPart : Text → Text
  | [] => []
  | b :: rest => if b == byte '-' then rest else b :: rest

/-- The two ways to cut a number, at its dot and behind its first digits, accept the same texts. -/
theorem isBareNumber_eq_scan (t : Text) :
    isBareNumber t =
      match t.takeWhile Byte.isDigit, t.dropWhile Byte.isDigit with
      | [], _ => false
      | _, [] => true
      | _, dot :: fraction => dot == byte '.' && isUnsignedInteger fraction := by
  have hcut := List.takeWhile_append_dropWhile (p := Byte.isDigit) (l := t)
  rw [Bool.eq_iff_iff, isBareNumber_iff]
  constructor
  . rintro (hdigits | ⟨whole, places, rfl, hwhole, hplaces⟩)
    . rw [List.takeWhile_eq_self_iff.mpr hdigits.2, List.dropWhile_eq_nil_iff.mpr hdigits.2]
      obtain ⟨d, tail, rfl⟩ := List.exists_cons_of_ne_nil hdigits.1
      rfl
    . have hdot : Text.Stops Byte.isDigit (byte '.' :: places) := rfl
      rw [Text.takeWhile_append_of_stops hwhole.2 hdot,
        Text.dropWhile_append_of_stops hwhole.2 hdot]
      obtain ⟨d, tail, rfl⟩ := List.exists_cons_of_ne_nil hwhole.1
      simp [isUnsignedInteger_iff.mpr hplaces]
  . intro h
    have hdigits : ∀ b ∈ t.takeWhile Byte.isDigit, Byte.isDigit b = true := by
      intro b hb
      exact List.mem_takeWhile_imp hb
    split at h
    . cases h
    . next hdrop hne =>
      rw [hdrop, List.append_nil] at hcut
      rw [hcut] at hne hdigits
      exact .inl ⟨hne, hdigits⟩
    . next dot fraction hdrop hne =>
      rw [Bool.and_eq_true, beq_iff_eq, isUnsignedInteger_iff] at h
      rw [hdrop, h.1] at hcut
      exact .inr ⟨_, fraction, hcut.symm, ⟨hne, hdigits⟩, h.2⟩

theorem isNumericLiteral_eq (t : Text) : isNumericLiteral t = isBareNumber (unsignedPart t) := by
  rw [isBareNumber_eq_scan]
  cases t with
  | nil => rfl
  | cons b rest => rfl

theorem isNumericLiteral_iff {t : Text} :
    isNumericLiteral t = true ↔
      isBareNumber t = true ∨ ∃ u, t = byte '-' :: u ∧ isBareNumber u = true := by
  rw [isNumericLiteral_eq]
  cases t with
  | nil => simp [unsignedPart]
  | cons b rest =>
    by_cases hb : b = byte '-'
    . subst hb
      have hsign : ¬ isBareNumber (byte '-' :: rest) = true := by
        intro h
        obtain ⟨d, tail, heq, hd⟩ := head_of_isBareNumber h
        cases heq
        cases hd
      simp [unsignedPart, hsign]
    . simp [unsignedPart, hb]

end SchemaMigration.Sql

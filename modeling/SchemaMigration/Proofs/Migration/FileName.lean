import SchemaMigration.Migration.Directory
import SchemaMigration.Proofs.Decimal
import SchemaMigration.Proofs.Machine.Addition
import SchemaMigration.Proofs.Migration.Name

/-!
This module contains the names of migration files. An accepted name always gives the name of a file
in the migrations directory itself, and names of one normalized form have the same file. The names
of the migration files in a directory are listed in increasing order.
-/

namespace SchemaMigration

namespace Moment

/-- A stamp has digits only, or also hyphens if the year is negative. -/
theorem of_mem_stamp (now : Moment) :
    ∀ b ∈ now.stamp, Byte.isDigit b = true ∨ b = byte '-' := by
  have hint : ∀ (n : Int), ∀ b ∈ Text.ofInt n, Byte.isDigit b = true ∨ b = byte '-' := by
    intro n b hb
    cases n with
    | ofNat n => exact .inl (Text.isDigit_of_mem_ofNat b hb)
    | negSucc n =>
      cases hb with
      | head => exact .inr rfl
      | tail _ hb => exact .inl (Text.isDigit_of_mem_ofNat b hb)
  have htwo : ∀ (n : Int), ∀ b ∈ Calendar.twoDigits n, Byte.isDigit b = true ∨ b = byte '-' := by
    intro n b hb
    cases List.mem_append.mp hb with
    | inl hzero =>
      rw [List.eq_of_mem_replicate hzero]
      exact .inl rfl
    | inr hdigit => exact hint n b hdigit
  intro b hb
  simp only [stamp, List.mem_append, or_assoc] at hb
  obtain h | h | h | h | h | h := hb
  . exact hint _ b h
  all_goals exact htwo _ b h

/-- Two moments of one second have the same stamp. -/
theorem stamp_congr {now now' : Moment} (h : now'.seconds = now.seconds) :
    now'.stamp = now.stamp := by
  simp only [stamp, date, secondOfDay, h]

end Moment

namespace Migration

variable {name name' : Text}

/-- The name of a migration in its file name: in lower case, with underscores for hyphens. -/
def normalized (name : Text) : Text :=
  name.lower.map fun b => if b = byte '-' then byte '_' else b

def isNormal (b : UInt8) : Bool := Byte.isLower b || Byte.isDigit b || b == byte '_'

theorem isNormal_iff {b : UInt8} :
    isNormal b = true ↔ (97 ≤ b.toNat ∧ b.toNat ≤ 122) ∨ (48 ≤ b.toNat ∧ b.toNat ≤ 57) ∨
      b.toNat = 95 := by
  simp only [isNormal, Bool.or_eq_true, beq_iff_eq, ← UInt8.toNat_inj, or_assoc, Byte.isLower_iff,
    Byte.isDigit_iff]
  rfl

theorem isAlphanumeric_iff {b : UInt8} :
    isAlphanumeric b = true ↔ (97 ≤ b.toNat ∧ b.toNat ≤ 122) ∨ (65 ≤ b.toNat ∧ b.toNat ≤ 90) ∨
      (48 ≤ b.toNat ∧ b.toNat ≤ 57) := by
  rw [isAlphanumeric, Bool.or_eq_true, Byte.isLetter_iff, Byte.isDigit_iff, or_assoc]

theorem isNameByte_iff {b : UInt8} :
    isNameByte b = true ↔ isAlphanumeric b = true ∨ b.toNat = 95 ∨ b.toNat = 45 := by
  simp only [isNameByte, Bool.or_eq_true, beq_iff_eq, ← UInt8.toNat_inj, or_assoc]
  rfl

theorem toLower_eq_hyphen_iff {b : UInt8} : Byte.toLower b = byte '-' ↔ b = byte '-' := by
  rw [← UInt8.toNat_inj, ← UInt8.toNat_inj, Byte.toNat_toLower]
  change _ = 45 ↔ _ = 45
  split
  . next hupper =>
    rw [Byte.isUpper_iff] at hupper
    omega
  . rfl

theorem map_fileByte (name : Text) : name.map fileByte = normalized name := by
  rw [normalized, Text.lower, List.map_map]
  apply List.map_congr_left
  intro b _
  simp only [fileByte, Function.comp_apply, beq_iff_eq, toLower_eq_hyphen_iff]

theorem toNat_fileByte (b : UInt8) :
    (fileByte b).toNat = if b.toNat = 45 then 95
      else if 65 ≤ b.toNat ∧ b.toNat ≤ 90 then b.toNat + 32 else b.toNat := by
  have hhyphen : (byte '-').toNat = 45 := rfl
  simp only [fileByte, beq_iff_eq, ← Byte.isUpper_iff, ← Byte.toNat_toLower, ← UInt8.toNat_inj,
    hhyphen]
  split
  . rfl
  . rfl

/-- The bytes that a name may have are those that are normal in the file name. -/
theorem isNormal_fileByte (b : UInt8) : isNormal (fileByte b) = isNameByte b := by
  rw [Bool.eq_iff_iff, isNormal_iff, isNameByte_iff, isAlphanumeric_iff, toNat_fileByte]
  split
  . omega
  . split
    . omega
    . omega

theorem isAlphanumeric_fileByte (b : UInt8) : isAlphanumeric (fileByte b) = isAlphanumeric b := by
  rw [Bool.eq_iff_iff, isAlphanumeric_iff, isAlphanumeric_iff, toNat_fileByte]
  split
  . omega
  . split
    . omega
    . omega

/-- Whether a name is accepted can be seen from its normalized form. -/
theorem Accepted.of_normalized_eq (h : Accepted name) (heq : normalized name' = normalized name) :
    Accepted name' := by
  rw [← map_fileByte, ← map_fileByte] at heq
  refine ⟨?_, ?_, ?_⟩
  . obtain ⟨first, rest, rfl, hfirst⟩ := h.start
    obtain ⟨first', rest', rfl, hfile, _⟩ := List.map_eq_cons_iff.mp heq
    refine ⟨first', rest', rfl, ?_⟩
    rw [← isAlphanumeric_fileByte, hfile, isAlphanumeric_fileByte]
    exact hfirst
  . intro b hb
    have hmem : fileByte b ∈ name.map fileByte := heq ▸ List.mem_map_of_mem hb
    obtain ⟨c, hc, hbyte⟩ := List.mem_map.mp hmem
    rw [← isNormal_fileByte, ← hbyte, isNormal_fileByte]
    exact h.bytes c hc
  . have hlength := congrArg List.length heq
    rw [List.length_map, List.length_map] at hlength
    rw [hlength]
    exact h.length

theorem Accepted.isNormal (h : Accepted name) : ∀ b ∈ normalized name, isNormal b = true := by
  rw [← map_fileByte, List.forall_mem_map]
  intro b hb
  rw [isNormal_fileByte]
  exact h.bytes b hb

theorem fileName_eq (stamp name : Text) :
    fileName stamp name = stamp ++ byte '_' :: normalized name ++ ascii ".sigl" := by
  rw [fileName, map_fileByte]
  rfl

/-- The bytes of a file name. -/
theorem of_mem_fileName (h : Accepted name) (now : Moment) :
    ∀ b ∈ fileName now.stamp name, Migration.isNormal b = true ∨ b ∈ ascii "-." := by
  intro b hb
  rw [fileName_eq, List.append_assoc, List.mem_append, List.cons_append, List.mem_cons,
    List.mem_append] at hb
  obtain hb | rfl | hb | hb := hb
  . obtain hdigit | rfl := now.of_mem_stamp b hb
    . exact .inl (by simp [Migration.isNormal, hdigit])
    . exact .inr (by decide)
  . exact .inl rfl
  . exact .inl (h.isNormal b hb)
  . have hall : (ascii ".sigl").all fun b => isNormal b || (ascii "-.").contains b := rfl
    simpa using List.all_eq_true.mp hall b hb

theorem isFileName_fileName (h : Accepted name) (now : Moment) :
    Disk.IsFileName (fileName now.stamp name) := by
  have hbytes := of_mem_fileName h now
  refine ⟨?_, ?_, ?_, ?_⟩
  . rw [fileName_eq]
    simp
  . intro hmem
    exact absurd (hbytes _ hmem) (by decide)
  . intro hmem
    exact absurd (hbytes _ hmem) (by decide)
  . have hlength : 6 ≤ (fileName now.stamp name).length := by
      have hextension : (ascii ".sigl").length = 5 := rfl
      rw [fileName_eq, List.length_append, List.length_append, List.length_cons, hextension]
      omega
    rw [Disk.isDots, Bool.or_eq_false_iff, beq_eq_false_iff_ne, beq_eq_false_iff_ne]
    constructor
    . intro heq
      rw [heq] at hlength
      exact absurd hlength (by decide)
    . intro heq
      rw [heq] at hlength
      exact absurd hlength (by decide)

theorem extension_append {t : Text} (ht : t ≠ []) :
    Path.extension (t ++ fileExtension) = fileExtension := by
  have hpos := List.length_pos_iff.mpr ht
  have hlength : (t ++ fileExtension).length = t.length + 5 := List.length_append
  have htail : ((t ++ fileExtension).reverse.takeWhile (· != byte '.')).reverse = ascii "sigl" := by
    have hreverse : fileExtension.reverse = ascii "lgis" ++ [byte '.'] := rfl
    rw [List.reverse_append, hreverse, List.append_assoc,
      List.takeWhile_append_of_pos (List.all_eq_true.mp rfl), List.singleton_append,
      List.takeWhile_cons_of_neg (by decide), List.append_nil]
    rfl
  unfold Path.extension
  rw [if_neg, htail]
  . dsimp only
    rw [if_pos]
    . rfl
    . rw [hlength]
      change 4 + 1 < _
      omega
  . rw [Bool.or_eq_true, beq_iff_eq, beq_iff_eq]
    rintro (heq | heq)
    . rw [heq] at hlength
      change 1 = _ at hlength
      omega
    . rw [heq] at hlength
      change 2 = _ at hlength
      omega

theorem extension_fileName (stamp name : Text) :
    Path.extension (fileName stamp name) = fileExtension :=
  extension_append (List.append_ne_nil_of_right_ne_nil _ (List.cons_ne_nil _ _))

theorem fileNames_eq_sortDistinct (found : World.Listing) :
    fileNames found = Text.sortDistinct
      ((found.entries.filter fun entry => isMigrationFile entry.1 entry.2).map (·.1)) :=
  Text.sort_eq_sortDistinct ((List.filter_sublist.map _).nodup found.nodup)

theorem fileNames_sorted (found : World.Listing) : (fileNames found).Pairwise (· < ·) := by
  rw [fileNames_eq_sortDistinct]
  exact Text.sortDistinct_sorted _

theorem mem_fileNames {found : World.Listing} {name : Text} :
    name ∈ fileNames found ↔
      (name, true) ∈ found.entries ∧ Path.extension name = fileExtension := by
  rw [fileNames_eq_sortDistinct, Text.mem_sortDistinct, List.mem_map]
  constructor
  . rintro ⟨⟨name, isRegular⟩, hentry, rfl⟩
    obtain ⟨hlisted, hmigration⟩ := List.mem_filter.mp hentry
    simp only [isMigrationFile, Bool.and_eq_true, beq_iff_eq] at hmigration
    obtain ⟨hextension, rfl⟩ := hmigration
    exact ⟨hlisted, hextension⟩
  . rintro ⟨hlisted, hextension⟩
    refine ⟨(name, true), List.mem_filter.mpr ⟨hlisted, ?_⟩, rfl⟩
    simp [isMigrationFile, hextension]

end Migration

end SchemaMigration

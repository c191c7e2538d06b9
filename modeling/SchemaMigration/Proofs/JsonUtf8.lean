import SchemaMigration.Proofs.Json
import SchemaMigration.Proofs.Utf8

/-!
This module contains that the documents that can be read are those whose texts are UTF-8: reading
yields no other ones, and what is written of such a document is read back.
-/

namespace SchemaMigration.Json

open Utf8

variable {b : UInt8} {t rest : Text} {s : Utf8.State}

theorem isUtf8_of_cons (hb : b.toNat < 0x80) (h : Text.isUtf8 (b :: t) = true) :
    t.isUtf8 = true := by
  rw [← List.singleton_append] at h
  rwa [Text.isUtf8_append (Text.isUtf8_of_ascii (by simpa using hb))] at h

/-- What stands in front of a rest are bytes that stand for themselves. -/
def Plain (t rest : Text) : Prop :=
  ∃ front, t = front ++ rest ∧ ∀ b ∈ front, b.toNat < 0x80

namespace Plain

theorem refl (t : Text) : Plain t t := ⟨[], rfl, nofun⟩

theorem cons (hb : b.toNat < 0x80) (h : Plain t rest) : Plain (b :: t) rest := by
  obtain ⟨front, rfl, hfront⟩ := h
  exact ⟨b :: front, rfl, List.forall_mem_cons.mpr ⟨hb, hfront⟩⟩

theorem trans {middle : Text} (h : Plain t middle) (h' : Plain middle rest) : Plain t rest := by
  obtain ⟨front, rfl, hfront⟩ := h
  obtain ⟨front', rfl, hfront'⟩ := h'
  exact ⟨front ++ front', (List.append_assoc ..).symm, List.forall_mem_append.mpr ⟨hfront, hfront'⟩⟩

theorem dropWhile {p : UInt8 → Bool} (hp : ∀ b, p b = true → b.toNat < 0x80) (t : Text) :
    Plain t (t.dropWhile p) :=
  ⟨t.takeWhile p, List.takeWhile_append_dropWhile.symm,
    fun b hb => hp b (List.mem_takeWhile_imp hb)⟩

theorem isUtf8 (h : Plain t rest) (ht : t.isUtf8 = true) : rest.isUtf8 = true := by
  obtain ⟨front, rfl, hfront⟩ := h
  rwa [Text.isUtf8_append (Text.isUtf8_of_ascii hfront)] at ht

end Plain

theorem plain_skipBlanks (t : Text) : Plain t (skipBlanks t) := by
  apply Plain.dropWhile
  intro b hb
  simp only [isBlank, Bool.or_eq_true, beq_iff_eq] at hb
  rcases hb with ((rfl | rfl) | rfl) | rfl
  all_goals decide

theorem isUtf8_skipBlanks (h : t.isUtf8 = true) : (skipBlanks t).isUtf8 = true :=
  (plain_skipBlanks t).isUtf8 h

theorem plain_dropDigits (t : Text) : Plain t (t.dropWhile Byte.isDigit) := by
  apply Plain.dropWhile
  intro b hb
  obtain ⟨_, hhigh⟩ := Byte.isDigit_iff.mp hb
  omega

theorem plain_of_fraction? {digits : Text} (h : fraction? t = some (digits, rest)) :
    Plain t rest := by
  unfold fraction? at h
  split at h
  . next dot after =>
    split at h
    . next hdot =>
      split at h
      . cases h
      . cases h
        exact .cons (beq_iff_eq.mp hdot ▸ by decide) (plain_dropDigits after)
    . cases h
      exact .refl _
  . cases h
    exact .refl _

theorem plain_of_exponent? {value : Int} (h : exponent? t = some (value, rest)) :
    Plain t rest := by
  unfold exponent? at h
  split at h
  . next e after =>
    split at h
    . next he =>
      have hmark : e.toNat < 0x80 := by
        rcases Bool.or_eq_true_iff.mp he with he | he
        all_goals exact beq_iff_eq.mp he ▸ by decide
      apply Plain.cons hmark
      dsimp only at h
      split at h
      . cases h
      . cases h
        cases after with
        | nil => exact .refl _
        | cons sign digits =>
          dsimp only
          split
          . next hsign => exact .cons (beq_iff_eq.mp hsign ▸ by decide) (plain_dropDigits digits)
          . split
            . next hsign => exact .cons (beq_iff_eq.mp hsign ▸ by decide) (plain_dropDigits digits)
            . exact plain_dropDigits _
    . cases h
      exact .refl _
  . cases h
    exact .refl _

theorem plain_of_number? {n : Int × Int} (h : number? t = some (n, rest)) : Plain t rest := by
  unfold number? at h
  dsimp only at h
  split at h
  . cases h
  . split at h
    . cases h
    . simp only [Option.bind_eq_bind, Option.bind_eq_some_iff, Option.pure_def] at h
      obtain ⟨⟨fraction, rest₁⟩, hfraction, ⟨exponent, rest₂⟩, hexponent, h⟩ := h
      cases h
      have hunsigned := (plain_dropDigits _).trans
        ((plain_of_fraction? hfraction).trans (plain_of_exponent? hexponent))
      cases t with
      | nil => exact hunsigned
      | cons b after =>
        dsimp only at hunsigned
        split at hunsigned
        . next hb => exact .cons (beq_iff_eq.mp hb ▸ by decide) hunsigned
        . exact hunsigned

theorem plain_of_word? {word : Text} {value j : Json} (hword : ∀ b ∈ word, b.toNat < 0x80)
    (h : word? word value t = some (j, rest)) : j = value ∧ Plain t rest := by
  unfold word? at h
  split at h
  . next hprefix =>
    obtain ⟨after, rfl⟩ := List.isPrefixOf_iff_prefix.mp hprefix
    cases h
    rw [List.drop_left]
    exact ⟨rfl, word, rfl, hword⟩
  . cases h

theorem lt_of_hexValue? {n : Nat} (h : hexValue? b = some n) : b.toNat < 0x80 ∧ n < 16 := by
  unfold hexValue? at h
  split at h
  . next hdigit =>
    cases h
    have := Byte.isDigit_iff.mp hdigit
    omega
  . split at h
    . next hletter =>
      cases h
      obtain ⟨hlow, hhigh⟩ := Bool.and_eq_true_iff.mp hletter
      have hlow : 97 ≤ b.toNat := UInt8.le_iff_toNat_le.mp (of_decide_eq_true hlow)
      have hhigh : b.toNat ≤ 102 := UInt8.le_iff_toNat_le.mp (of_decide_eq_true hhigh)
      omega
    . split at h
      . next hletter =>
        cases h
        obtain ⟨hlow, hhigh⟩ := Bool.and_eq_true_iff.mp hletter
        have hlow : 65 ≤ b.toNat := UInt8.le_iff_toNat_le.mp (of_decide_eq_true hlow)
        have hhigh : b.toNat ≤ 70 := UInt8.le_iff_toNat_le.mp (of_decide_eq_true hhigh)
        omega
      . cases h

theorem lt_of_unit? {h₁ h₂ h₃ h₄ : UInt8} {code : Nat} (h : unit? h₁ h₂ h₃ h₄ = some code) :
    (∀ b ∈ [h₁, h₂, h₃, h₄], b.toNat < 0x80) ∧ code < 0x10000 := by
  unfold unit? at h
  simp only [Option.bind_eq_bind, Option.bind_eq_some_iff, Option.pure_def] at h
  obtain ⟨n₁, hn₁, n₂, hn₂, n₃, hn₃, n₄, hn₄, h⟩ := h
  cases h
  obtain ⟨hb₁, hlt₁⟩ := lt_of_hexValue? hn₁
  obtain ⟨hb₂, hlt₂⟩ := lt_of_hexValue? hn₂
  obtain ⟨hb₃, hlt₃⟩ := lt_of_hexValue? hn₃
  obtain ⟨hb₄, hlt₄⟩ := lt_of_hexValue? hn₄
  refine ⟨?_, by omega⟩
  simp [hb₁, hb₂, hb₃, hb₄]

theorem lt_of_escape? {c : UInt8} (h : escape? b = some c) : b.toNat < 0x80 ∧ c.toNat < 0x80 := by
  unfold escape? at h
  repeat' split at h
  all_goals cases h
  all_goals
    next hb =>
    rw [beq_iff_eq.mp hb]
    decide

/-- Behind bytes that stand for themselves, a text goes on with a whole encoding. -/
theorem scan?_append_of_ascii (front : Text) (hfront : ∀ x ∈ b :: front, x.toNat < 0x80)
    (h : scan? s (b :: (front ++ t)) = some .start) :
    s = .start ∧ scan? .start t = some .start := by
  obtain ⟨hb, hfront⟩ := List.forall_mem_cons.mp hfront
  obtain ⟨rfl, hfollow⟩ := eq_start_of_ascii hb h
  rw [scan?_append, Text.isUtf8_iff.mp (Text.isUtf8_of_ascii hfront)] at hfollow
  exact ⟨rfl, hfollow⟩

theorem scan?_encode_append {code : Nat} (hcode : IsScalar code)
    (h : scan? .start t = some .start) : scan? .start (encode code ++ t) = some .start := by
  rw [scan?_append, scan?_char (char_encode hcode)]
  exact h

/--
The value of a string goes through the same encodings as what is read of it: only bytes that stand
for themselves are replaced, by whole encodings.
-/
theorem scan?_of_stringBody? {value : Text} (h : stringBody? t = some (value, rest))
    (ht : scan? s t = some .start) : scan? s value = some .start ∧ rest.isUtf8 = true := by
  have hslash {b : UInt8} (hb : (b == byte '\\') = true) : b.toNat < 0x80 :=
    beq_iff_eq.mp hb ▸ by decide
  have hletter {b : UInt8} (hb : (b == byte 'u') = true) : b.toNat < 0x80 :=
    beq_iff_eq.mp hb ▸ by decide
  fun_induction stringBody? t generalizing s value with
  | case2 b after hquote =>
    cases h
    have hb : b.toNat < 0x80 := beq_iff_eq.mp hquote ▸ by decide
    obtain ⟨rfl, hrest⟩ := scan?_append_of_ascii [] (by simpa using hb) ht
    exact ⟨rfl, Text.isUtf8_iff.mpr hrest⟩
  | case5 b _ hb e he h₁ h₂ h₃ h₄ after code hcode hscalar ih =>
    obtain ⟨⟨value', rest'⟩, hvalue, h⟩ := Option.map_eq_some_iff.mp h
    cases h
    obtain ⟨hdigits, hlt⟩ := lt_of_unit? hcode
    obtain ⟨rfl, hafter⟩ := scan?_append_of_ascii [e, h₁, h₂, h₃, h₄]
      (List.forall_mem_cons.mpr ⟨hslash hb, List.forall_mem_cons.mpr ⟨hletter he, hdigits⟩⟩) ht
    obtain ⟨hvalue, hrest⟩ := ih hvalue hafter
    simp only [Bool.or_eq_true, decide_eq_true_eq] at hscalar
    exact ⟨scan?_encode_append ⟨by omega, hscalar⟩ hvalue, hrest⟩
  | case7 b _ hb e he h₁ h₂ h₃ h₄ code hcode hnot hhigh s' u l₁ l₂ l₃ l₄ after hmark low hlow hrange
    ih =>
    obtain ⟨⟨value', rest'⟩, hvalue, h⟩ := Option.map_eq_some_iff.mp h
    obtain ⟨rfl, rfl⟩ := Prod.mk.inj h
    obtain ⟨hdigits, _⟩ := lt_of_unit? hcode
    obtain ⟨hdigits', _⟩ := lt_of_unit? hlow
    obtain ⟨hs', hu⟩ := Bool.and_eq_true_iff.mp hmark
    have hfront : ∀ x ∈ b :: ([e] ++ [h₁, h₂, h₃, h₄] ++ [s', u] ++ [l₁, l₂, l₃, l₄]),
        x.toNat < 0x80 := by
      simp only [List.forall_mem_cons, List.forall_mem_append]
      simp only [List.forall_mem_cons] at hdigits hdigits'
      exact ⟨hslash hb, ⟨⟨⟨hletter he, nofun⟩, hdigits⟩, hslash hs', hletter hu, nofun⟩, hdigits'⟩
    obtain ⟨rfl, hafter⟩ := scan?_append_of_ascii _ hfront ht
    obtain ⟨hvalue, hrest⟩ := ih hvalue hafter
    simp only [Bool.and_eq_true, decide_eq_true_eq] at hrange
    exact ⟨scan?_encode_append ⟨by omega, by omega⟩ hvalue, hrest⟩
  | case14 b _ hb e after _ c hc ih =>
    obtain ⟨⟨value', rest'⟩, hvalue, h⟩ := Option.map_eq_some_iff.mp h
    cases h
    obtain ⟨he, hc⟩ := lt_of_escape? hc
    obtain ⟨rfl, hafter⟩ := scan?_append_of_ascii [e] (by simpa using ⟨hslash hb, he⟩) ht
    obtain ⟨hvalue, hrest⟩ := ih hvalue hafter
    exact ⟨scan?_cons.mpr ⟨.start, first?_eq_some.mpr (.start hc), hvalue⟩, hrest⟩
  | case16 b after _ _ _ ih =>
    obtain ⟨⟨value', rest'⟩, hvalue, h⟩ := Option.map_eq_some_iff.mp h
    cases h
    obtain ⟨next, hstep, hafter⟩ := scan?_cons.mp ht
    obtain ⟨hvalue, hrest⟩ := ih hvalue hafter
    exact ⟨scan?_cons.mpr ⟨next, hstep, hvalue⟩, hrest⟩
  | _ => cases h

theorem isUtf8_of_stringBody? {value : Text} (h : stringBody? t = some (value, rest))
    (ht : t.isUtf8 = true) : value.isUtf8 = true ∧ rest.isUtf8 = true := by
  obtain ⟨hvalue, hrest⟩ := scan?_of_stringBody? h (Text.isUtf8_iff.mp ht)
  exact ⟨Text.isUtf8_iff.mpr hvalue, hrest⟩

theorem isUtf8_tail {mark : UInt8} (hb : (b == mark) = true) (hmark : mark.toNat < 0x80)
    (h : skipBlanks t = b :: rest) (ht : t.isUtf8 = true) : rest.isUtf8 = true :=
  isUtf8_of_cons (beq_iff_eq.mp hb ▸ hmark) (h ▸ isUtf8_skipBlanks ht)

-- The three readers call each other with less fuel.
mutual

theorem isUtf8_of_value? {fuel : Nat} {t rest : Text} {j : Json}
    (h : value? fuel t = some (j, rest)) (ht : t.isUtf8 = true) :
    j.isUtf8 = true ∧ rest.isUtf8 = true := by
  cases fuel with
  | zero =>
    rw [value?] at h
    cases h
  | succ fuel =>
    rw [value?] at h
    split at h
    . cases h
    . next b after hskip =>
      have hall : Text.isUtf8 (b :: after) = true := hskip ▸ isUtf8_skipBlanks ht
      split at h
      . next hb =>
        have hafter := isUtf8_tail hb (by decide) hskip ht
        split at h
        . cases h
        . next c inside hskip' =>
          have hinside : Text.isUtf8 (c :: inside) = true := hskip' ▸ isUtf8_skipBlanks hafter
          split at h
          . next hc =>
            cases h
            exact ⟨by rw [isUtf8, haveUtf8], isUtf8_tail hc (by decide) hskip' hafter⟩
          . obtain ⟨⟨members, rest'⟩, hmembers, h⟩ := Option.map_eq_some_iff.mp h
            cases h
            rw [isUtf8]
            exact isUtf8_of_members? hmembers hinside
      . split at h
        . next hb =>
          have hafter := isUtf8_tail hb (by decide) hskip ht
          split at h
          . cases h
          . next c inside hskip' =>
            have hinside : Text.isUtf8 (c :: inside) = true := hskip' ▸ isUtf8_skipBlanks hafter
            split at h
            . next hc =>
              cases h
              exact ⟨by rw [isUtf8, areUtf8], isUtf8_tail hc (by decide) hskip' hafter⟩
            . obtain ⟨⟨elements, rest'⟩, helements, h⟩ := Option.map_eq_some_iff.mp h
              cases h
              rw [isUtf8]
              exact isUtf8_of_elements? helements hinside
        . split at h
          . next hb =>
            obtain ⟨⟨value, rest'⟩, hvalue, h⟩ := Option.map_eq_some_iff.mp h
            cases h
            rw [isUtf8]
            exact isUtf8_of_stringBody? hvalue (isUtf8_tail hb (by decide) hskip ht)
          . split at h
            . obtain ⟨rfl, hplain⟩ := plain_of_word? (by decide +kernel) h
              exact ⟨by rw [isUtf8] <;> nofun, hplain.isUtf8 hall⟩
            . split at h
              . obtain ⟨rfl, hplain⟩ := plain_of_word? (by decide +kernel) h
                exact ⟨by rw [isUtf8] <;> nofun, hplain.isUtf8 hall⟩
              . split at h
                . obtain ⟨rfl, hplain⟩ := plain_of_word? (by decide +kernel) h
                  exact ⟨by rw [isUtf8] <;> nofun, hplain.isUtf8 hall⟩
                . obtain ⟨⟨n, rest'⟩, hnumber, h⟩ := Option.map_eq_some_iff.mp h
                  cases h
                  exact ⟨by rw [isUtf8] <;> nofun, (plain_of_number? hnumber).isUtf8 hall⟩

theorem isUtf8_of_elements? {fuel : Nat} {t rest : Text} {elements : List Json}
    (h : elements? fuel t = some (elements, rest)) (ht : t.isUtf8 = true) :
    areUtf8 elements = true ∧ rest.isUtf8 = true := by
  cases fuel with
  | zero =>
    rw [elements?] at h
    cases h
  | succ fuel =>
    rw [elements?] at h
    split at h
    . cases h
    . next element after hvalue =>
      obtain ⟨helement, hafter⟩ := isUtf8_of_value? hvalue ht
      split at h
      . cases h
      . next b next hskip =>
        split at h
        . next hb =>
          obtain ⟨⟨others, rest'⟩, hothers, h⟩ := Option.map_eq_some_iff.mp h
          cases h
          obtain ⟨hothers, hrest⟩ :=
            isUtf8_of_elements? hothers (isUtf8_tail hb (by decide) hskip hafter)
          exact ⟨by rw [areUtf8, helement, hothers]; rfl, hrest⟩
        . split at h
          . next hb =>
            cases h
            exact ⟨by rw [areUtf8, areUtf8, helement]; rfl, isUtf8_tail hb (by decide) hskip hafter⟩
          . cases h

theorem isUtf8_of_members? {fuel : Nat} {t rest : Text} {members : List (Text × Json)}
    (h : members? fuel t = some (members, rest)) (ht : t.isUtf8 = true) :
    haveUtf8 members = true ∧ rest.isUtf8 = true := by
  cases fuel with
  | zero =>
    rw [members?] at h
    cases h
  | succ fuel =>
    rw [members?] at h
    split at h
    . cases h
    . next q after hskip =>
      split at h
      . next hq =>
        split at h
        . cases h
        . next key after' hkey =>
          obtain ⟨hkey, hafter'⟩ :=
            isUtf8_of_stringBody? hkey (isUtf8_tail hq (by decide) hskip ht)
          split at h
          . cases h
          . next colon after'' hskip' =>
            split at h
            . next hcolon =>
              split at h
              . cases h
              . next value last hvalue =>
                obtain ⟨hvalue, hlast⟩ :=
                  isUtf8_of_value? hvalue (isUtf8_tail hcolon (by decide) hskip' hafter')
                split at h
                . cases h
                . next b next hskip'' =>
                  split at h
                  . next hb =>
                    obtain ⟨⟨others, rest'⟩, hothers, h⟩ := Option.map_eq_some_iff.mp h
                    cases h
                    obtain ⟨hothers, hrest⟩ :=
                      isUtf8_of_members? hothers (isUtf8_tail hb (by decide) hskip'' hlast)
                    exact ⟨by rw [haveUtf8, hkey, hvalue, hothers]; rfl, hrest⟩
                  . split at h
                    . next hb =>
                      cases h
                      exact ⟨by rw [haveUtf8, haveUtf8, hkey, hvalue]; rfl,
                        isUtf8_tail hb (by decide) hskip'' hlast⟩
                    . cases h
            . cases h
      . cases h

end

theorem isUtf8_of_parse? {j : Json} (h : parse? t = some j) :
    t.isUtf8 = true ∧ j.isUtf8 = true := by
  unfold parse? at h
  split at h
  . next ht =>
    split at h
    . cases h
    . next value rest hvalue =>
      split at h
      . cases h
        exact ⟨ht, (isUtf8_of_value? hvalue ht).1⟩
      . cases h
  . cases h

theorem toNat_hexDigit_lt {n : Nat} (h : n < 16) : (Text.hexDigit n).toNat < 0x80 := by
  have hall : ∀ m : Fin 16, (Text.hexDigit m.val).toNat < 0x80 := by decide
  exact hall ⟨n, h⟩

theorem isUtf8_hexByte (b : UInt8) : (Text.hexByte b).isUtf8 = true := by
  have hb := b.toNat_lt
  apply Text.isUtf8_of_ascii
  rw [Text.hexByte, List.forall_mem_cons, List.forall_mem_singleton]
  exact ⟨toNat_hexDigit_lt (by omega), toNat_hexDigit_lt (by omega)⟩

theorem isUtf8_escape (hb : b.toNat < 0x80) : (escape b).isUtf8 = true := by
  unfold escape
  split
  . rfl
  . split
    . rfl
    . split
      . exact Text.append_isUtf8 rfl (isUtf8_hexByte b)
      . exact Text.isUtf8_of_ascii (by simpa using hb)

theorem escape_of_not_ascii (hb : ¬ b.toNat < 0x80) : escape b = [b] := by
  have hne {c : UInt8} (hc : c.toNat < 0x80) : ¬ (b == c) = true := by
    rw [beq_iff_eq]
    rintro rfl
    exact hb hc
  have hcontrol : ¬ b < 0x20 := by
    rw [UInt8.lt_iff_toNat_lt]
    exact fun h => hb (Nat.lt_trans h (by decide))
  unfold escape
  rw [if_neg (hne (by decide)), if_neg (hne (by decide)), if_neg hcontrol]

theorem scan?_escapes (h : scan? s t = some .start) :
    scan? s (t.flatMap escape) = some .start := by
  induction t generalizing s with
  | nil => exact h
  | cons b t ih =>
    rw [List.flatMap_cons, scan?_append]
    by_cases hb : b.toNat < 0x80
    . obtain ⟨rfl, hrest⟩ := eq_start_of_ascii hb h
      rw [Text.isUtf8_iff.mp (isUtf8_escape hb)]
      exact ih hrest
    . obtain ⟨next, hstep, hrest⟩ := scan?_cons.mp h
      have hnext : scan? s [b] = some next := scan?_cons.mpr ⟨next, hstep, rfl⟩
      rw [escape_of_not_ascii hb, hnext]
      exact ih hrest

theorem isUtf8_quote (h : t.isUtf8 = true) : (quote t).isUtf8 = true := by
  have hbody : Text.isUtf8 (t.flatMap escape) = true :=
    Text.isUtf8_iff.mpr (scan?_escapes (Text.isUtf8_iff.mp h))
  exact Text.append_isUtf8 (Text.cons_isUtf8 (by decide) hbody) rfl

theorem isUtf8_line (depth : Nat) : (line depth).isUtf8 = true := by
  apply Text.isUtf8_of_ascii
  rw [line, List.forall_mem_cons]
  exact ⟨by decide, fun b hb => List.eq_of_mem_replicate hb ▸ by decide⟩

mutual

theorem isUtf8_renderAt (depth : Nat) {j : Json} (h : j.isUtf8 = true) :
    (renderAt depth j).isUtf8 = true := by
  cases j with
  | null =>
    rw [renderAt]
    rfl
  | bool value =>
    cases value with
    | true =>
      rw [renderAt]
      rfl
    | false =>
      rw [renderAt]
      rfl
  | number m e =>
    rw [renderAt]
    split
    . exact Text.isUtf8_ofInt m
    . exact Text.append_isUtf8 (Text.isUtf8_ofInt m)
        (Text.cons_isUtf8 (by decide) (Text.isUtf8_ofInt e))
  | string value =>
    rw [isUtf8] at h
    rw [renderAt]
    exact isUtf8_quote h
  | array elements =>
    rw [isUtf8] at h
    cases elements with
    | nil =>
      rw [renderAt]
      rfl
    | cons element elements =>
      rw [renderAt]
      have helements :=
        Text.cons_isUtf8 (b := byte '[') (by decide) (isUtf8_renderElements (depth + 1) h)
      exact Text.append_isUtf8 (Text.append_isUtf8 helements (isUtf8_line depth)) rfl
  | object members =>
    rw [isUtf8] at h
    cases members with
    | nil =>
      rw [renderAt]
      rfl
    | cons member members =>
      rw [renderAt]
      exact Text.append_isUtf8 (Text.append_isUtf8
        (Text.cons_isUtf8 (by decide) (isUtf8_renderMembers (depth + 1) h)) (isUtf8_line depth)) rfl

theorem isUtf8_renderElements (depth : Nat) {elements : List Json} (h : areUtf8 elements = true) :
    (renderElements depth elements).isUtf8 = true := by
  cases elements with
  | nil =>
    rw [renderElements]
    rfl
  | cons element elements =>
    rw [areUtf8, Bool.and_eq_true_iff] at h
    obtain ⟨helement, helements⟩ := h
    have hfirst := Text.append_isUtf8 (isUtf8_line depth) (isUtf8_renderAt depth helement)
    cases elements with
    | nil =>
      rw [renderElements]
      exact hfirst
    | cons next elements =>
      rw [renderElements]
      exact Text.append_isUtf8 hfirst
        (Text.cons_isUtf8 (by decide) (isUtf8_renderElements depth helements))

theorem isUtf8_renderMembers (depth : Nat) {members : List (Text × Json)}
    (h : haveUtf8 members = true) : (renderMembers depth members).isUtf8 = true := by
  cases members with
  | nil =>
    rw [renderMembers]
    rfl
  | cons member members =>
    obtain ⟨key, value⟩ := member
    rw [haveUtf8, Bool.and_eq_true_iff, Bool.and_eq_true_iff] at h
    obtain ⟨⟨hkey, hvalue⟩, hmembers⟩ := h
    have hname := Text.append_isUtf8 (isUtf8_line depth) (isUtf8_quote hkey)
    have hfirst := Text.append_isUtf8 (Text.append_isUtf8 hname (u := ascii ": ") rfl)
      (isUtf8_renderAt depth hvalue)
    cases members with
    | nil =>
      rw [renderMembers]
      exact hfirst
    | cons next members =>
      rw [renderMembers]
      exact Text.append_isUtf8 hfirst
        (Text.cons_isUtf8 (by decide) (isUtf8_renderMembers depth hmembers))

end

theorem parse?_render {j : Json} (h : j.isUtf8 = true) : parse? j.render = some j := by
  have hrender : j.render.isUtf8 = true := Text.append_isUtf8 (isUtf8_renderAt 0 h) rfl
  unfold parse?
  rw [if_pos hrender, value?_render]
  rfl

theorem parse?_render_of_not_utf8 {j : Json} (h : ¬ j.isUtf8 = true) : parse? j.render = none := by
  unfold parse?
  split
  . next hrender => exact absurd (isUtf8_of_value? (value?_render j) hrender).1 h
  . rfl

theorem print?_eq_some_iff {j : Json} : j.print? = some t ↔ j.isUtf8 = true ∧ t = j.render := by
  unfold print?
  split
  . next h => simp [h, eq_comm]
  . next h => simp [h]

theorem parse?_of_print? {j : Json} (h : j.print? = some t) : parse? t = some j := by
  obtain ⟨hutf8, rfl⟩ := print?_eq_some_iff.mp h
  exact parse?_render hutf8

end SchemaMigration.Json

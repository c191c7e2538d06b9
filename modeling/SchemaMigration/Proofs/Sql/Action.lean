import Mathlib.Logic.Relation
import SchemaMigration.Proofs.Basic
import SchemaMigration.Sql.Statement

/-!
This module contains how the text of an action is read. The loop that reads it gives the words of
the text in upper case with single spaces between them, so neither the case of letters nor the kind
and the number of separators matter. Nothing else is ignored.
-/

namespace SchemaMigration

namespace Byte

theorem toUpper_toUpper (b : UInt8) : toUpper (toUpper b) = toUpper b := by
  rw [← UInt8.toNat_inj, toNat_toUpper (toUpper b)]
  split
  . next hlower =>
    rw [isLower_iff, toNat_toUpper] at hlower
    split at hlower
    . next hlower' =>
      rw [isLower_iff] at hlower'
      omega
    . next hlower' =>
      rw [isLower_iff] at hlower'
      omega
  . rfl

end Byte

namespace Sql.Action

def words (t : Text) : List Text := (t.splitOnP isSeparator).filter fun w => !w.isEmpty

def spelling (t : Text) : Text := Text.join [byte ' '] ((words t).map Text.upper)

def spellings : List Text :=
  [ascii "CASCADE", ascii "SET NULL", ascii "SET DEFAULT", ascii "RESTRICT", ascii "NO ACTION"]

/-- A change of the case of letters, or of the kind and the number of separators. -/
inductive Respelling : Text → Text → Prop
  | letterCase {t t' : Text} (h : t.upper = t'.upper) : Respelling t t'
  | otherSeparator (before after : Text) {b c : UInt8} (hb : isSeparator b = true)
    (hc : isSeparator c = true) : Respelling (before ++ b :: after) (before ++ c :: after)
  | longerRun (before after : Text) {b c : UInt8} (hb : isSeparator b = true)
    (hc : isSeparator c = true) : Respelling (before ++ b :: after) (before ++ b :: c :: after)
  | atFront (t : Text) {b : UInt8} (hb : isSeparator b = true) : Respelling t (b :: t)
  | atBack (t : Text) {b : UInt8} (hb : isSeparator b = true) : Respelling t (t ++ [b])

/-- Texts that such changes lead from one to the other, in either direction. -/
def Respelled : Text → Text → Prop := Relation.EqvGen Respelling

theorem isSeparator_iff {b : UInt8} :
    isSeparator b = true ↔ b.toNat = 32 ∨ b.toNat = 95 ∨ b.toNat = 45 := by
  simp only [isSeparator, Bool.or_eq_true, beq_iff_eq, ← UInt8.toNat_inj, or_assoc]
  rfl

theorem isSeparator_toUpper (b : UInt8) : isSeparator (Byte.toUpper b) = isSeparator b := by
  rw [Bool.eq_iff_iff, isSeparator_iff, isSeparator_iff, Byte.toNat_toUpper]
  split
  . next hlower =>
    rw [Byte.isLower_iff] at hlower
    omega
  . rfl

def inWord (b : UInt8) : Bool := !isSeparator b

section Words

variable {b : UInt8}

theorem words_append_cons (hb : isSeparator b = true) (before after : Text) :
    words (before ++ b :: after) = words before ++ words after := by
  unfold words
  rw [List.splitOnP_append_cons before after hb, List.filter_append]

theorem words_cons (hb : isSeparator b = true) (t : Text) : words (b :: t) = words t :=
  words_append_cons hb [] t

theorem words_concat (hb : isSeparator b = true) (t : Text) : words (t ++ [b]) = words t := by
  rw [words_append_cons hb]
  exact List.append_nil _

theorem words_word {w : Text} (hne : w ≠ []) (hw : ∀ c ∈ w, inWord c = true) : words w = [w] := by
  have hsplit : w.splitOnP isSeparator = [w] := by
    apply List.splitOnP_eq_singleton
    intro c hc
    simpa [inWord] using hw c hc
  rw [words, hsplit]
  simp [hne]

/-- A byte of a word that stands in front begins a word, which goes on up to a separator. -/
theorem words_cons_of_inWord (hb : inWord b = true) (t : Text) :
    words (b :: t) = (b :: t.takeWhile inWord) :: words (t.dropWhile inWord) := by
  have hword : words (b :: t.takeWhile inWord) = [b :: t.takeWhile inWord] := by
    apply words_word (List.cons_ne_nil _ _)
    intro c hc
    cases hc with
    | head => exact hb
    | tail _ hc => exact List.mem_takeWhile_imp hc
  have hstop := Text.stops_dropWhile inWord t
  have hsplit : b :: t = b :: t.takeWhile inWord ++ t.dropWhile inWord := by
    rw [List.cons_append, List.takeWhile_append_dropWhile]
  rw [hsplit]
  cases hrest : t.dropWhile inWord with
  | nil =>
    rw [List.append_nil]
    exact hword
  | cons s rest =>
    rw [hrest] at hstop
    have hs : isSeparator s = true := by simpa [Text.Stops, inWord] using hstop
    rw [words_append_cons hs, words_cons hs, hword, List.singleton_append]

end Words

def spaced (ws : List Text) : Text := ws.flatMap fun w => byte ' ' :: w.upper

theorem join_map_upper (w : Text) (ws : List Text) :
    Text.join [byte ' '] ((w :: ws).map Text.upper) = w.upper ++ spaced ws := by
  induction ws generalizing w with
  | nil => simp [Text.join, spaced]
  | cons next ws ih =>
    have hrest := ih next
    rw [List.map_cons] at hrest
    simp [Text.join, spaced, hrest]

/-- What the loop adds when a word has been written, behind a separator and within a word. -/
theorem normalize_started (t : Text) :
    normalize true true t = spaced (words t) ∧
      normalize true false t =
        Text.upper (t.takeWhile inWord) ++ spaced (words (t.dropWhile inWord)) := by
  induction t with
  | nil => exact ⟨rfl, rfl⟩
  | cons b t ih =>
    unfold normalize
    cases hb : isSeparator b with
    | true => simp [hb, inWord, words_cons hb, ih.1, Text.upper]
    | false =>
      have hword : inWord b = true := by simp [inWord, hb]
      simp [words_cons_of_inWord hword, hword, ih.2, spaced, Text.upper]

theorem normalize_eq_spelling (t : Text) : normalize false false t = spelling t := by
  induction t with
  | nil => rfl
  | cons b t ih =>
    unfold normalize spelling
    cases hb : isSeparator b with
    | true =>
      rw [words_cons hb]
      exact ih
    | false =>
      rw [words_cons_of_inWord (by simp [inWord, hb]), join_map_upper]
      exact congrArg (Byte.toUpper b :: ·) (normalize_started t).2

theorem normalize_upper (started separated : Bool) (t : Text) :
    normalize started separated t.upper = normalize started separated t := by
  induction t generalizing started separated with
  | nil => rfl
  | cons b t ih =>
    unfold Text.upper at ih ⊢
    simp only [List.map_cons, normalize, isSeparator_toUpper, Byte.toUpper_toUpper, ih]

theorem spelling_upper (t : Text) : spelling t.upper = spelling t := by
  rw [← normalize_eq_spelling, ← normalize_eq_spelling, normalize_upper]

theorem Respelling.spelling_eq {t t' : Text} (h : Respelling t t') : spelling t' = spelling t := by
  cases h with
  | letterCase h => rw [← spelling_upper t', ← h, spelling_upper]
  | otherSeparator before after hb hc =>
    rw [spelling, spelling, words_append_cons hb, words_append_cons hc]
  | longerRun before after hb hc =>
    rw [spelling, spelling, words_append_cons hb, words_append_cons hb, words_cons hc]
  | atFront t hb => rw [spelling, spelling, words_cons hb]
  | atBack t hb => rw [spelling, spelling, words_concat hb]

namespace Respelled

theorem spelling_eq {t t' : Text} (h : Respelled t t') : spelling t' = spelling t := by
  induction h with
  | rel t t' h => exact h.spelling_eq
  | refl t => rfl
  | symm t t' _ ih => exact ih.symm
  | trans t t' t'' _ _ ih ih' => exact ih'.trans ih

theorem upper_byte (before : Text) (b : UInt8) (after : Text) :
    Respelled (before ++ b :: after) (before ++ Byte.toUpper b :: after) := by
  apply Relation.EqvGen.rel
  apply Respelling.letterCase
  simp [Text.upper, Byte.toUpper_toUpper]

/-- What the loop has yet to read, with the separator that it has seen, reads like what it adds. -/
theorem append_normalize (before t : Text) (separated : Bool) :
    Respelled (before ++ if separated then byte ' ' :: t else t)
      (before ++ normalize true separated t) := by
  induction t generalizing before separated with
  | nil =>
    cases separated with
    | true =>
      rw [normalize, List.append_nil]
      exact .symm _ _ (.rel _ _ (.atBack before rfl))
    | false => exact .refl _
  | cons b t ih =>
    unfold normalize
    cases hb : isSeparator b with
    | true =>
      have hrest := ih before true
      cases separated with
      | true => exact .trans _ _ _ (.symm _ _ (.rel _ _ (.longerRun before t rfl hb))) hrest
      | false => exact .trans _ _ _ (.rel _ _ (.otherSeparator before t hb rfl)) hrest
    | false =>
      cases separated with
      | true =>
        have hrest := ih (before ++ [byte ' ', Byte.toUpper b]) false
        have hfirst := upper_byte (before ++ [byte ' ']) b t
        simp only [List.append_assoc, List.cons_append, List.nil_append] at hfirst hrest
        exact .trans _ _ _ hfirst hrest
      | false =>
        have hrest := ih (before ++ [Byte.toUpper b]) false
        simp only [List.append_assoc, List.cons_append, List.nil_append] at hrest
        exact .trans _ _ _ (upper_byte before b t) hrest

theorem of_spelling (t : Text) : Respelled t (spelling t) := by
  rw [← normalize_eq_spelling]
  induction t with
  | nil => exact .refl _
  | cons b t ih =>
    unfold normalize
    cases hb : isSeparator b with
    | true => exact .trans _ _ _ (.symm _ _ (.rel _ _ (.atFront t hb))) ih
    | false => exact .trans _ _ _ (upper_byte [] b t) (append_normalize [Byte.toUpper b] t false)

end Respelled

theorem respelled_iff {t t' : Text} : Respelled t t' ↔ spelling t = spelling t' := by
  constructor
  . intro h
    exact h.spelling_eq.symm
  . intro h
    have hback := Relation.EqvGen.symm _ _ (Respelled.of_spelling t')
    rw [← h] at hback
    exact .trans _ _ _ (Respelled.of_spelling t) hback

theorem ofText?_eq_some_iff {t : Text} {action : Action} :
    ofText? t = some action ↔ action.name = spelling t := by
  unfold ofText?
  rw [normalize_eq_spelling]
  constructor
  . intro h
    have hname := List.find?_some h
    exact beq_iff_eq.mp hname
  . intro h
    rw [← h]
    cases action
    all_goals rfl

theorem ofText?_name (action : Action) : ofText? action.name = some action := by
  cases action
  all_goals rfl

theorem mem_spellings_iff {u : Text} : u ∈ spellings ↔ ∃ action : Action, action.name = u := by
  have hall : spellings = all.map name := rfl
  rw [hall, List.mem_map]
  constructor
  . rintro ⟨action, _, h⟩
    exact ⟨action, h⟩
  . rintro ⟨action, h⟩
    exact ⟨action, by cases action <;> decide, h⟩

theorem map_name_ofText? (t : Text) :
    (ofText? t).map name = if spelling t ∈ spellings then some (spelling t) else none := by
  cases haction : ofText? t with
  | some action =>
    have hname := ofText?_eq_some_iff.mp haction
    rw [if_pos (mem_spellings_iff.mpr ⟨action, hname⟩), ← hname]
    rfl
  | none =>
    rw [if_neg]
    . rfl
    . intro hmem
      obtain ⟨action, hname⟩ := mem_spellings_iff.mp hmem
      rw [ofText?_eq_some_iff.mpr hname] at haction
      cases haction

/--
A text names an action if its words, in upper case and with single spaces between them, are those of
the action. So a text may be respelled, texts that name one action are respellings of each other,
and an action is named by its own text.
-/
theorem named_by_words (t : Text) :
    (ofText? t).map name = (if spelling t ∈ spellings then some (spelling t) else none) ∧
      (∀ t', Respelled t t' → ofText? t' = ofText? t) ∧
      (∀ t' action, ofText? t = some action → ofText? t' = some action → Respelled t t') ∧
      ∀ u, (ofText? t).map name = some u → (ofText? u).map name = some u := by
  refine ⟨map_name_ofText? t, ?_, ?_, ?_⟩
  . intro t' h
    unfold ofText?
    rw [normalize_eq_spelling, normalize_eq_spelling, h.spelling_eq]
  . intro t' action h h'
    apply respelled_iff.mpr
    rw [← ofText?_eq_some_iff.mp h, ← ofText?_eq_some_iff.mp h']
  . intro u h
    obtain ⟨action, _, rfl⟩ := Option.map_eq_some_iff.mp h
    rw [ofText?_name]
    rfl

/-- Leading, repeated and trailing separators of all kinds. -/
theorem named_by_words_of_separators :
    let t := ascii "-_Set _ nULL--"
    let t' := ascii "set null"
    (ofText? t).map name = some (ascii "SET NULL") ∧ Respelled t t' ∧ ofText? t' = ofText? t ∧
      (ofText? (ascii "SET NULL")).map name = some (ascii "SET NULL") := by
  intro t t'
  obtain ⟨_, hkeeps, honly, hagain⟩ := named_by_words t
  have h : ofText? t = some .setNull := by decide +kernel
  have h' : ofText? t' = some .setNull := by decide +kernel
  have hrespelled := honly t' .setNull h h'
  have hname : (ofText? t).map name = some (ascii "SET NULL") := by rw [h]; rfl
  exact ⟨hname, hrespelled, hkeeps t' hrespelled, hagain _ hname⟩

end Sql.Action

end SchemaMigration

import Mathlib.Data.List.Forall2
import Mathlib.Data.List.TakeWhile
import SchemaMigration.Text

/-!
This module contains lemmas about texts, about names that must not repeat and about computations
that may fail, for use in all other proofs.
-/

namespace SchemaMigration

theorem bind_eq_ok {ε α β : Type} {x : Except ε α} {f : α → Except ε β} {b : β} :
    (x >>= f) = .ok b ↔ ∃ a, x = .ok a ∧ f a = .ok b := by
  cases x with
  | error e => simp [bind, Except.bind]
  | ok a => simp [bind, Except.bind]

theorem bind_eq_error {ε α β : Type} {x : Except ε α} {f : α → Except ε β} {e : ε} :
    (x >>= f) = .error e ↔ x = .error e ∨ ∃ a, x = .ok a ∧ f a = .error e := by
  cases x with
  | error e => simp [bind, Except.bind]
  | ok a => simp [bind, Except.bind]

@[simp]
theorem ok_bind {ε α β : Type} (a : α) (f : α → Except ε β) : (Except.ok a >>= f) = f a := rfl

theorem mapError_eq_ok {ε ε' α : Type} {x : Except ε α} {f : ε → ε'} {a : α} :
    x.mapError f = .ok a ↔ x = .ok a := by
  cases x with
  | error e => simp [Except.mapError]
  | ok b => simp [Except.mapError]

theorem map_eq_ok {ε α β : Type} {x : Except ε α} {f : α → β} {b : β} :
    x.map f = .ok b ↔ ∃ a, x = .ok a ∧ f a = b := by
  cases x with
  | error e => simp [Except.map]
  | ok a => simp [Except.map]

theorem exists_bind_ok_iff {ε α β : Type} {x : Except ε α} {f : α → Except ε β} :
    (∃ b, (x >>= f) = .ok b) ↔ ∃ a, x = .ok a ∧ ∃ b, f a = .ok b := by
  simp only [bind_eq_ok, ← exists_and_left]
  exact exists_comm

theorem exists_map_ok_iff {ε α β : Type} {x : Except ε α} {f : α → β} :
    (∃ b, x.map f = .ok b) ↔ ∃ a, x = .ok a := by
  cases x with
  | error e => simp [Except.map]
  | ok a => simp [Except.map]

theorem foldlM_some {α β : Type} {f : β → α → Option β} {P : β → Prop}
    {l : List α} (hstep : ∀ b, ∀ a ∈ l, ∀ b', P b → f b a = some b' → P b') {b b' : β} (hb : P b)
    (h : l.foldlM f b = some b') : P b' := by
  induction l generalizing b with
  | nil =>
    cases h
    exact hb
  | cons a l ih =>
    rw [List.foldlM_cons] at h
    obtain ⟨b'', hfirst, hrest⟩ := Option.bind_eq_some_iff.mp h
    apply ih (fun b a ha => hstep b a (List.mem_cons_of_mem _ ha)) _ hrest
    exact hstep b a List.mem_cons_self b'' hb hfirst

theorem append_singleton_eq_iff {α : Type} {l before after : List α} {a b : α} :
    l ++ [a] = before ++ b :: after ↔
      (after = [] ∧ l = before ∧ a = b) ∨
        ∃ newer, after = newer ++ [a] ∧ l = before ++ b :: newer := by
  constructor
  . intro h
    cases after.eq_nil_or_concat with
    | inl hnil =>
      subst hnil
      obtain ⟨rfl, hlast⟩ := List.append_inj' h rfl
      cases hlast
      exact .inl ⟨rfl, rfl, rfl⟩
    | inr hconcat =>
      obtain ⟨newer, last, rfl⟩ := hconcat
      rw [List.concat_eq_append, ← List.cons_append, ← List.append_assoc] at h
      obtain ⟨hl, hlast⟩ := List.append_inj' h rfl
      cases hlast
      exact .inr ⟨newer, List.concat_eq_append, hl⟩
  . rintro (⟨rfl, rfl, rfl⟩ | ⟨newer, rfl, rfl⟩)
    . rfl
    . simp

theorem filterMap_cons_eq_append {α β : Type} (f : α → Option β) (a : α) (l : List α) :
    (a :: l).filterMap f = (f a).toList ++ l.filterMap f := by
  cases h : f a with
  | none => simp [h]
  | some b => simp [h]

theorem exists_of_mem_forall₂ {α β : Type} {R : α → β → Prop} {l : List α} {l' : List β}
    (h : List.Forall₂ R l l') {b : β} (hb : b ∈ l') : ∃ a ∈ l, R a b := by
  induction h with
  | nil => cases hb
  | cons hab _ ih =>
    cases hb with
    | head => exact ⟨_, List.mem_cons_self, hab⟩
    | tail _ hb =>
      obtain ⟨a, ha, hr⟩ := ih hb
      exact ⟨a, List.mem_cons_of_mem _ ha, hr⟩

theorem forall₂_of_mapM_some {α β : Type} {f : α → Option β} {l : List α} {l' : List β}
    (h : l.mapM f = some l') : List.Forall₂ (fun a b => f a = some b) l l' := by
  induction l generalizing l' with
  | nil =>
    cases h
    exact .nil
  | cons a l ih =>
    rw [List.mapM_cons] at h
    obtain ⟨b, hb, h⟩ := Option.bind_eq_some_iff.mp h
    obtain ⟨rest, hrest, h⟩ := Option.bind_eq_some_iff.mp h
    cases h
    exact .cons hb (ih hrest)

theorem forall₂_of_mapM_ok {ε α β : Type} {f : α → Except ε β} {l : List α} {l' : List β}
    (h : l.mapM f = .ok l') : List.Forall₂ (fun a b => f a = .ok b) l l' := by
  induction l generalizing l' with
  | nil =>
    cases h
    exact .nil
  | cons a l ih =>
    rw [List.mapM_cons] at h
    obtain ⟨b, hb, h⟩ := bind_eq_ok.mp h
    obtain ⟨rest, hrest, h⟩ := bind_eq_ok.mp h
    cases h
    exact .cons hb (ih hrest)

theorem mapM_ok_iff_forall₂ {ε α β : Type} {f : α → Except ε β} {l : List α} {l' : List β} :
    l.mapM f = .ok l' ↔ List.Forall₂ (fun a b => f a = .ok b) l l' := by
  refine ⟨forall₂_of_mapM_ok, fun h => ?_⟩
  induction h with
  | nil => rfl
  | cons hb _ ih =>
    rw [List.mapM_cons, hb, ok_bind, ih]
    rfl

theorem exists_mapM_ok_iff {ε α β : Type} {f : α → Except ε β} {l : List α} :
    (∃ l', l.mapM f = .ok l') ↔ ∀ a ∈ l, ∃ b, f a = .ok b := by
  induction l with
  | nil => simp [pure, Except.pure]
  | cons a l ih =>
    rw [List.mapM_cons, exists_bind_ok_iff, List.forall_mem_cons, ← ih]
    simp only [exists_bind_ok_iff]
    constructor
    . rintro ⟨b, hb, rest, hrest, _⟩
      exact ⟨⟨b, hb⟩, rest, hrest⟩
    . rintro ⟨⟨b, hb⟩, rest, hrest⟩
      exact ⟨b, hb, rest, hrest, _, rfl⟩

theorem mapM_append_ok {ε α β : Type} {f : α → Except ε β} {l₁ l₂ : List α} {l₁' l₂' : List β}
    (h₁ : l₁.mapM f = .ok l₁') (h₂ : l₂.mapM f = .ok l₂') :
    (l₁ ++ l₂).mapM f = .ok (l₁' ++ l₂') := by
  rw [List.mapM_append, h₁, h₂]
  rfl

theorem ne_nil_of_mapM_ok {ε α β : Type} {f : α → Except ε β} {l : List α} {l' : List β}
    (h : l.mapM f = .ok l') (hne : l ≠ []) : l' ≠ [] := by
  rintro rfl
  exact hne (List.forall₂_nil_right_iff.mp (forall₂_of_mapM_ok h))

theorem forall₂_and_eq_iff {α β γ : Type} {f : α → γ} {g : β → γ} {P : β → Prop} {l : List α}
    {l' : List β} :
    List.Forall₂ (fun a b => g b = f a ∧ P b) l l' ↔ l'.map g = l.map f ∧ ∀ b ∈ l', P b := by
  induction l generalizing l' with
  | nil => cases l' <;> simp
  | cons a l ih =>
    cases l' with
    | nil => simp
    | cons b l' =>
      rw [List.forall₂_cons, ih, List.map_cons, List.map_cons, List.cons.injEq,
        List.forall_mem_cons]
      exact and_and_and_comm

section Fresh

variable {α : Type} {name : α → Text} {seen : List Text}

structure Fresh (name : α → Text) (seen : List Text) (as : List α) : Prop where
  unseen : ∀ a ∈ as, name a ∉ seen
  distinct : (as.map name).Nodup

theorem fresh_nil : Fresh name seen [] := ⟨nofun, List.nodup_nil⟩

theorem fresh_of_nodup {as : List α} (h : (as.map name).Nodup) : Fresh name [] as :=
  ⟨fun _ _ => List.not_mem_nil, h⟩

theorem fresh_cons {a : α} {as : List α} :
    Fresh name seen (a :: as) ↔ name a ∉ seen ∧ Fresh name (name a :: seen) as := by
  constructor
  . intro h
    have hnodup := List.nodup_cons.mp h.distinct
    refine ⟨h.unseen a (List.mem_cons_self ..), ?_, hnodup.2⟩
    intro e he hmem
    cases List.mem_cons.mp hmem with
    | inl heq => exact hnodup.1 (heq ▸ List.mem_map_of_mem he)
    | inr hseen => exact h.unseen e (List.mem_cons_of_mem _ he) hseen
  . rintro ⟨ha, hrest⟩
    constructor
    . intro e he
      cases he with
      | head => exact ha
      | tail _ he => exact fun hseen => hrest.unseen e he (List.mem_cons_of_mem _ hseen)
    . apply List.nodup_cons.mpr
      refine ⟨?_, hrest.distinct⟩
      intro hmem
      obtain ⟨e, he, heq⟩ := List.mem_map.mp hmem
      exact hrest.unseen e he (List.mem_cons.mpr (Or.inl heq))

end Fresh

theorem beq_false_of_class {p : UInt8 → Bool} {b c : UInt8} (hb : p b = true) (hc : p c = false) :
    (b == c) = false := by
  apply beq_eq_false_iff_ne.mpr
  intro h
  rw [h, hc] at hb
  cases hb

namespace Byte

theorem isDigit_iff {b : UInt8} : isDigit b = true ↔ 48 ≤ b.toNat ∧ b.toNat ≤ 57 := by
  simp only [isDigit, Bool.and_eq_true, decide_eq_true_eq, UInt8.le_iff_toNat_le]
  rfl

theorem isLower_iff {b : UInt8} : isLower b = true ↔ 97 ≤ b.toNat ∧ b.toNat ≤ 122 := by
  simp only [isLower, Bool.and_eq_true, decide_eq_true_eq, UInt8.le_iff_toNat_le]
  rfl

theorem isUpper_iff {b : UInt8} : isUpper b = true ↔ 65 ≤ b.toNat ∧ b.toNat ≤ 90 := by
  simp only [isUpper, Bool.and_eq_true, decide_eq_true_eq, UInt8.le_iff_toNat_le]
  rfl

theorem isWordStart_iff {b : UInt8} :
    isWordStart b = true ↔
      (97 ≤ b.toNat ∧ b.toNat ≤ 122) ∨ (65 ≤ b.toNat ∧ b.toNat ≤ 90) ∨ b.toNat = 95 := by
  simp only [isWordStart, isLetter, Bool.or_eq_true, isLower_iff, isUpper_iff, beq_iff_eq,
    ← UInt8.toNat_inj, or_assoc]
  rfl

theorem isWordStart_of_isDigit {b : UInt8} (h : isDigit b = true) : isWordStart b = false := by
  rw [isDigit_iff] at h
  rw [← Bool.not_eq_true, isWordStart_iff]
  omega

theorem toNat_toUpper (b : UInt8) :
    (toUpper b).toNat = if isLower b then b.toNat - 32 else b.toNat := by
  unfold toUpper
  split
  . next hlower =>
    rw [isLower_iff] at hlower
    have hle : (32 : UInt8) ≤ b := UInt8.le_iff_toNat_le.mpr (Nat.le_trans (by decide) hlower.1)
    exact UInt8.toNat_sub_of_le b 32 hle
  . rfl

theorem toNat_toLower (b : UInt8) :
    (toLower b).toNat = if isUpper b then b.toNat + 32 else b.toNat := by
  unfold toLower
  split
  . next hupper =>
    rw [isUpper_iff] at hupper
    have hsum : b.toNat + 32 < 256 := by omega
    rw [UInt8.toNat_add]
    exact Nat.mod_eq_of_lt hsum
  . rfl

end Byte

namespace Text

def Stops (p : UInt8 → Bool) : Text → Prop
  | [] => True
  | b :: _ => p b = false

theorem takeWhile_append_of_stops {p : UInt8 → Bool} {t rest : Text}
    (ht : ∀ b ∈ t, p b = true) (hrest : Stops p rest) : (t ++ rest).takeWhile p = t := by
  rw [List.takeWhile_append_of_pos ht]
  cases rest with
  | nil => simp
  | cons b rest => simp [show p b = false from hrest]

theorem dropWhile_append_of_stops {p : UInt8 → Bool} {t rest : Text}
    (ht : ∀ b ∈ t, p b = true) (hrest : Stops p rest) : (t ++ rest).dropWhile p = rest := by
  rw [List.dropWhile_append_of_pos ht]
  cases rest with
  | nil => simp
  | cons b rest => simp [show p b = false from hrest]

theorem head?_dropWhile_false (p : UInt8 → Bool) (t : Text) :
    ∀ b ∈ (t.dropWhile p).head?, p b = false := by
  intro b hb
  have := List.head?_dropWhile_not p t
  rw [hb] at this
  simpa using this

theorem stops_of_head? {p : UInt8 → Bool} {t : Text} (h : ∀ b ∈ t.head?, p b = false) :
    Stops p t := by
  cases t with
  | nil => trivial
  | cons b rest => exact h b rfl

theorem stops_dropWhile (p : UInt8 → Bool) (t : Text) : Stops p (t.dropWhile p) :=
  stops_of_head? (head?_dropWhile_false p t)

theorem splitFirst_eq_none {p : UInt8 → Bool} {t before : Text}
    (h : t.splitFirst p = (before, none)) : before = t ∧ ∀ b ∈ t, p b = false := by
  unfold splitFirst at h
  split at h
  . next hdrop =>
    cases h
    refine ⟨rfl, fun b hb => ?_⟩
    have := List.dropWhile_eq_nil_iff.mp hdrop b hb
    simpa using this
  . cases h

theorem splitFirst_eq_some {p : UInt8 → Bool} {t before after : Text}
    (h : t.splitFirst p = (before, some after)) :
    ∃ b, t = before ++ b :: after ∧ p b = true ∧ ∀ c ∈ before, p c = false := by
  unfold splitFirst at h
  split at h
  . cases h
  . next b rest hdrop =>
    cases h
    refine ⟨b, ?_, ?_, fun c hc => ?_⟩
    . rw [← hdrop, List.takeWhile_append_dropWhile]
    . have := head?_dropWhile_false (fun b => !p b) t b (by rw [hdrop]; rfl)
      simpa using this
    . simpa using List.mem_takeWhile_imp hc

theorem splitFirst_of_forall {p : UInt8 → Bool} {t : Text} (h : ∀ b ∈ t, p b = false) :
    t.splitFirst p = (t, none) := by
  have hdrop : t.dropWhile (fun b => !p b) = [] := by
    apply List.dropWhile_eq_nil_iff.mpr
    intro b hb
    rw [h b hb, Bool.not_false]
  rw [splitFirst, hdrop]

theorem splitFirst_append_cons {p : UInt8 → Bool} {before after : Text} {b : UInt8}
    (hb : p b = true) (hbefore : ∀ c ∈ before, p c = false) :
    splitFirst p (before ++ b :: after) = (before, some after) := by
  have hpasses : ∀ c ∈ before, (!p c) = true := by
    intro c hc
    rw [hbefore c hc, Bool.not_false]
  unfold splitFirst
  rw [List.dropWhile_append_of_pos hpasses, List.takeWhile_append_of_pos hpasses,
    List.dropWhile_cons_of_neg (by simp [hb]), List.takeWhile_cons_of_neg (by simp [hb]),
    List.append_nil]

theorem le_iff {s t : Text} : le s t = true ↔ s ≤ t := by
  rw [List.le_iff_lt_or_eq]
  induction s generalizing t with
  | nil =>
    cases t with
    | nil => simp [le]
    | cons b t => simp [le]
  | cons a s ih =>
    cases t with
    | nil => simp [le]
    | cons b t =>
      simp only [le, Bool.or_eq_true, decide_eq_true_eq, Bool.and_eq_true, beq_iff_eq, ih,
        List.cons.injEq, List.cons_lt_cons_iff]
      grind

theorem mem_insertDistinct {t u : Text} {ts : List Text} :
    u ∈ insertDistinct t ts ↔ u = t ∨ u ∈ ts := by
  induction ts with
  | nil => simp [insertDistinct]
  | cons v ts ih =>
    unfold insertDistinct
    split
    . next heq => simp [beq_iff_eq.mp heq]
    . split
      . exact List.mem_cons
      . rw [List.mem_cons, ih, List.mem_cons, or_left_comm]

theorem insertDistinct_sorted {t : Text} {ts : List Text} (h : ts.Pairwise (· < ·)) :
    (insertDistinct t ts).Pairwise (· < ·) := by
  induction ts with
  | nil => exact List.pairwise_singleton _ t
  | cons v ts ih =>
    obtain ⟨hfirst, hrest⟩ := List.pairwise_cons.mp h
    unfold insertDistinct
    split
    . exact h
    . next hne =>
      split
      . next hle =>
        have hlt : t < v :=
          (List.le_iff_lt_or_eq.mp (le_iff.mp hle)).resolve_right (by simpa using hne)
        refine List.pairwise_cons.mpr ⟨fun u hu => ?_, h⟩
        cases hu with
        | head => exact hlt
        | tail _ hu => exact List.lt_trans hlt (hfirst u hu)
      . next hle =>
        rw [le_iff, List.not_le] at hle
        refine List.pairwise_cons.mpr ⟨fun u hu => ?_, ih hrest⟩
        cases mem_insertDistinct.mp hu with
        | inl heq => exact heq ▸ hle
        | inr hu => exact hfirst u hu

theorem mem_sortDistinct {t : Text} {ts : List Text} : t ∈ sortDistinct ts ↔ t ∈ ts := by
  induction ts with
  | nil => exact Iff.rfl
  | cons u ts ih =>
    unfold sortDistinct at ih ⊢
    rw [List.foldr_cons, mem_insertDistinct, ih, List.mem_cons]

theorem sortDistinct_sorted (ts : List Text) : (sortDistinct ts).Pairwise (· < ·) := by
  induction ts with
  | nil => exact .nil
  | cons t ts ih => exact insertDistinct_sorted ih

theorem insertSorted_eq_insertDistinct {t : Text} {ts : List Text} (h : t ∉ ts) :
    insertSorted t ts = insertDistinct t ts := by
  induction ts with
  | nil => rfl
  | cons u ts ih =>
    rw [List.mem_cons, not_or] at h
    have hne : ¬ (t == u) = true := by simpa using h.1
    unfold insertSorted insertDistinct
    rw [if_neg hne, ih h.2]

/-- Where no text is repeated, there is none to be dropped. -/
theorem sort_eq_sortDistinct {ts : List Text} (h : ts.Nodup) : sort ts = sortDistinct ts := by
  induction ts with
  | nil => rfl
  | cons t ts ih =>
    obtain ⟨hnew, hrest⟩ := List.nodup_cons.mp h
    have hsorted : sort ts = sortDistinct ts := ih hrest
    unfold sort sortDistinct at hsorted ⊢
    rw [List.foldr_cons, List.foldr_cons, hsorted]
    exact insertSorted_eq_insertDistinct (mt mem_sortDistinct.mp hnew)

theorem nodup_of_sorted {ts : List Text} (h : ts.Pairwise (· < ·)) : ts.Nodup := by
  apply h.imp
  intro t u hlt heq
  subst heq
  exact List.lt_irrefl t hlt

end Text

end SchemaMigration

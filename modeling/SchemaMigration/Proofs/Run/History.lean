import SchemaMigration.Failure

/-!
This module contains the history of the transactions that were committed to a database.
-/

namespace SchemaMigration.Run

structure Commit where
  direction : Direction
  file : Text
  deriving DecidableEq, Repr

/-- The transactions that were committed, the oldest first. -/
abbrev History := List Commit

namespace History

def last? (history : History) (file : Text) : Option Direction :=
  (history.filter (·.file == file)).getLast?.map (·.direction)

/-- Between two applications of a file it is rolled back. -/
def Alternates (history : History) : Prop :=
  ∀ before between after file,
    history = before ++ ⟨.apply, file⟩ :: (between ++ ⟨.apply, file⟩ :: after) →
      ⟨.rollBack, file⟩ ∈ between

variable {history : History} {file : Text}

@[simp]
theorem last?_nil (file : Text) : last? [] file = none := rfl

theorem last?_append (older newer : History) (file : Text) :
    last? (older ++ newer) file = (last? newer file).or (last? older file) := by
  unfold last?
  rw [List.filter_append, List.getLast?_append]
  cases (newer.filter (·.file == file)).getLast? with
  | none => simp
  | some commit => simp

theorem last?_singleton_self (direction : Direction) (file : Text) :
    last? [⟨direction, file⟩] file = some direction := by
  simp [last?]

theorem last?_map_mk (direction : Direction) (files : List Text) (file : Text) :
    last? (files.map (Commit.mk direction)) file =
      if file ∈ files then some direction else none := by
  induction files with
  | nil => rfl
  | cons other files ih =>
    change last? ([⟨direction, other⟩] ++ files.map (Commit.mk direction)) file = _
    rw [last?_append, ih]
    by_cases hfiles : file ∈ files
    . simp [hfiles]
    . by_cases hother : other = file
      . simp [hother, hfiles, last?_singleton_self]
      . simp [hfiles, hother, Ne.symm hother, last?]

theorem mem_of_last? {direction : Direction} (h : last? history file = some direction) :
    ⟨direction, file⟩ ∈ history := by
  obtain ⟨commit, hlast, rfl⟩ := Option.map_eq_some_iff.mp h
  have hmem := List.mem_of_getLast? hlast
  rw [List.mem_filter, beq_iff_eq] at hmem
  rw [← hmem.2]
  exact hmem.1

theorem alternates_nil : Alternates [] := by
  intro before between after file h
  simp at h

theorem last?_of_not_mem {before between : History} (h : ⟨.rollBack, file⟩ ∉ between) :
    last? (before ++ ⟨.apply, file⟩ :: between) file = some .apply := by
  have hsplit : before ++ ⟨.apply, file⟩ :: between = before ++ [⟨.apply, file⟩] ++ between := by
    simp
  rw [hsplit, last?_append, last?_append, last?_singleton_self]
  cases hbetween : last? between file with
  | none => rfl
  | some direction =>
    cases direction with
    | apply => rfl
    | rollBack => exact absurd (mem_of_last? hbetween) h

theorem Alternates.append_singleton (h : Alternates history) {commit : Commit}
    (hcommit : commit.direction = .apply → last? history commit.file ≠ some .apply) :
    Alternates (history ++ [commit]) := by
  intro before between after file heq
  -- The second application is either the new transaction or one of the older ones.
  cases after.eq_nil_or_concat with
  | inl hnil =>
    subst hnil
    rw [← List.cons_append, ← List.append_assoc] at heq
    obtain ⟨rfl, hlast⟩ := List.append_inj' heq rfl
    cases hlast
    apply Decidable.byContradiction
    intro hbetween
    exact hcommit rfl (last?_of_not_mem hbetween)
  | inr hconcat =>
    obtain ⟨after, newest, rfl⟩ := hconcat
    simp only [List.concat_eq_append, ← List.cons_append, ← List.append_assoc] at heq
    have holder := (List.append_inj' heq rfl).1
    rw [List.append_assoc, List.cons_append] at holder
    exact h before between after file holder

theorem Alternates.append_apply (h : Alternates history) {files : List Text} (hnodup : files.Nodup)
    (hfiles : ∀ file ∈ files, last? history file ≠ some .apply) :
    Alternates (history ++ files.map (Commit.mk .apply)) := by
  induction files generalizing history with
  | nil =>
    rw [List.map_nil, List.append_nil]
    exact h
  | cons file files ih =>
    rw [List.nodup_cons] at hnodup
    rw [List.map_cons, List.append_cons]
    apply ih
    . exact h.append_singleton fun _ => hfiles file (List.mem_cons_self ..)
    . exact hnodup.2
    . intro other hother
      have hne : file ≠ other := fun heq => hnodup.1 (heq ▸ hother)
      rw [last?_append]
      simp only [last?, List.filter_cons, beq_eq_false_iff_ne.mpr hne]
      exact hfiles other (List.mem_cons_of_mem _ hother)

theorem Alternates.append_rollBack (h : Alternates history) (files : List Text) :
    Alternates (history ++ files.map (Commit.mk .rollBack)) := by
  induction files generalizing history with
  | nil =>
    rw [List.map_nil, List.append_nil]
    exact h
  | cons file files ih =>
    rw [List.map_cons, List.append_cons]
    exact ih (h.append_singleton nofun)

end History

end SchemaMigration.Run

import SchemaMigration.Proofs.Ledger.NewestBatch
import SchemaMigration.Proofs.Run.Course

/-!
This module contains the agenda of a run: the files that it is to treat, given what the ledger says.
Once the ledger has been told of the first files of an agenda, the next agenda consists of the other
ones, and what the ledger says behind those is what it would say behind a run that treats all.
-/

namespace SchemaMigration

/-- The name and the hash of a migration, by which the ledger knows it. -/
def MigrationFile.identity (f : MigrationFile) : Text × Text := (f.name, f.hash)

namespace Ledger

@[inherit_doc MigrationFile.identity]
def Entry.identity (e : Entry) : Text × Text := (e.file, e.hash)

namespace State

variable {s : State}

theorem isApplied_withBatch (s : State) (files : List MigrationFile) (appliedAt name : Text) :
    (s.withBatch files appliedAt).isApplied name =
      (s.isApplied name || (files.map (·.name)).contains name) := by
  rw [Bool.eq_iff_iff]
  simp [isApplied, withBatch]

theorem pending_withBatch (s : State) (files : List MigrationFile) (appliedAt : Text)
    (names : List Text) :
    (s.withBatch files appliedAt).pending names =
      (s.pending names).filter (!(files.map (·.name)).contains ·) := by
  unfold pending
  rw [List.filter_filter]
  apply List.filter_congr
  intro name _
  rw [isApplied_withBatch, Bool.not_or, Bool.and_comm]

theorem mem_pending {names : List Text} {name : Text} :
    name ∈ s.pending names ↔ name ∈ names ∧ name ∉ s.files := by
  simp [pending, isApplied, files, Text.mem_sortDistinct]

theorem pending_sorted (s : State) (names : List Text) : (s.pending names).Pairwise (· < ·) :=
  (Text.sortDistinct_sorted names).filter _

end State

end Ledger

namespace Run

variable {read files done rest : List MigrationFile} {state new : Ledger.State}
  {direction : Direction}

theorem require_eq_ok_iff {name : Text} {file : MigrationFile} :
    require read direction name = .ok file ↔
      file.name = name ∧ MigrationFile.find? read file.name = some file := by
  refine ⟨Course.require_ok, ?_⟩
  rintro ⟨rfl, hfind⟩
  unfold require
  rw [hfind]

theorem requireUnmodified_eq_ok_iff {e : Ledger.Entry} {file : MigrationFile} :
    requireUnmodified read e = .ok file ↔
      file.identity = e.identity ∧ MigrationFile.find? read file.name = some file := by
  unfold MigrationFile.identity Ledger.Entry.identity
  rw [Prod.mk.injEq]
  constructor
  . intro h
    obtain ⟨hname, hfind, hhash⟩ := Course.requireUnmodified_ok h
    exact ⟨⟨hname, hhash⟩, hfind⟩
  . rintro ⟨⟨hname, hhash⟩, hfind⟩
    unfold requireUnmodified
    rw [require_eq_ok_iff.mpr ⟨hname, hfind⟩, ok_bind, hhash, if_pos (beq_self_eq_true _)]
    rfl

theorem agenda_apply_eq_ok_iff :
    agenda read .apply state = .ok files ↔
      files.map (·.name) = state.pending (read.map (·.name)) ∧
        ∀ file ∈ files, MigrationFile.find? read file.name = some file := by
  unfold agenda
  rw [mapM_ok_iff_forall₂]
  simp only [require_eq_ok_iff]
  rw [forall₂_and_eq_iff, List.map_id']

theorem agenda_rollBack_eq_ok_iff :
    agenda read .rollBack state = .ok files ↔
      files.map (·.identity) = state.lastBatch.map (·.identity) ∧
        ∀ file ∈ files, MigrationFile.find? read file.name = some file := by
  unfold agenda
  rw [mapM_ok_iff_forall₂]
  simp only [requireUnmodified_eq_ok_iff]
  exact forall₂_and_eq_iff

theorem agenda_subset (h : agenda read direction state = .ok files) : files ⊆ read := by
  have hfound : ∀ file ∈ files, MigrationFile.find? read file.name = some file := by
    cases direction with
    | apply => exact (agenda_apply_eq_ok_iff.mp h).2
    | rollBack => exact (agenda_rollBack_eq_ok_iff.mp h).2
  intro file hfile
  exact List.mem_of_find?_eq_some (hfound file hfile)

theorem names_of_agenda (hvalid : state.Valid) (h : agenda read direction state = .ok files) :
    (files.map (·.name)).Nodup := by
  cases direction with
  | apply =>
    rw [(agenda_apply_eq_ok_iff.mp h).1]
    exact Text.nodup_of_sorted (state.pending_sorted _)
  | rollBack =>
    rw [Course.names_of_requireUnmodified h]
    exact hvalid.files_lastBatch_nodup

/--
The state of the ledger once it has been told of files that were treated. What cannot be written is
not recorded.
-/
inductive Tells (state : Ledger.State) (files : List MigrationFile) :
    Direction → Ledger.State → Prop
  | apply (appliedAt : Text) (hutf8 : (state.withBatch files appliedAt).Utf8) :
    Tells state files .apply (state.withBatch files appliedAt)
  | rollBack : Tells state files .rollBack (state.without ((files.map (·.name)).contains ·.file))

def Fulfilled (state : Ledger.State) (files : List MigrationFile) : Direction → Option Text → Prop
  | .apply, content? =>
    (Ledger.entries content?).map (·.identity) =
      state.entries.map (·.identity) ++ files.map (·.identity)
  | .rollBack, content? =>
    files ≠ [] → content? = some (state.without (·.batch == state.currentBatch)).encode

theorem name_not_mem_of_nodup (h : ((done ++ rest).map (·.name)).Nodup) {file : MigrationFile}
    (hfile : file ∈ rest) : file.name ∉ done.map (·.name) := by
  rw [List.map_append] at h
  intro hmem
  exact List.disjoint_of_nodup_append h hmem (List.mem_map_of_mem hfile)

theorem filter_names_of_nodup (h : ((done ++ rest).map (·.name)).Nodup) :
    (done ++ rest).filter (!(done.map (·.name)).contains ·.name) = rest := by
  have hdone : done.filter (!(done.map (·.name)).contains ·.name) = [] := by
    rw [List.filter_eq_nil_iff]
    intro file hfile
    simp [List.mem_map_of_mem hfile]
  have hrest : rest.filter (!(done.map (·.name)).contains ·.name) = rest := by
    rw [List.filter_eq_self]
    intro file hfile
    simpa using name_not_mem_of_nodup h hfile
  rw [List.filter_append, hdone, hrest, List.nil_append]

/-- Some of the newest batch is left, and so it stays the newest one. -/
theorem currentBatch_of_rest (hvalid : state.Valid)
    (hagenda : agenda read .rollBack state = .ok (done ++ rest)) (hrest : rest ≠ []) :
    (state.without ((done.map (·.name)).contains ·.file)).currentBatch = state.currentBatch := by
  obtain ⟨file, hfile⟩ := List.exists_mem_of_ne_nil rest hrest
  have hnames := Course.names_of_requireUnmodified hagenda
  have hmem : file.name ∈ state.lastBatch.map (·.file) := by
    rw [← hnames]
    exact List.mem_map_of_mem (List.mem_append_right done hfile)
  obtain ⟨e, he, hname⟩ := List.mem_map.mp hmem
  apply hvalid.currentBatch_without he
  have hnew := name_not_mem_of_nodup (names_of_agenda hvalid hagenda) hfile
  rw [← hname] at hnew
  simpa using hnew

namespace Tells

theorem inRange (h : Tells state files direction new) (hstate : state.InRange) : new.InRange := by
  cases h with
  | apply => exact Ledger.State.withBatch_inRange hstate _ _
  | rollBack => exact Ledger.State.without_inRange hstate _

theorem utf8 (h : Tells state files direction new) (hstate : state.Utf8) : new.Utf8 := by
  cases h with
  | apply appliedAt hutf8 => exact hutf8
  | rollBack => exact Ledger.State.without_utf8 hstate _

/-- The agenda of the next run is what is left of that of the last one. -/
theorem agenda_eq_rest (h : Tells state done direction new) (hvalid : state.Valid)
    (hagenda : agenda read direction state = .ok (done ++ rest)) (hrest : rest ≠ []) :
    agenda read direction new = .ok rest := by
  have hnodup := names_of_agenda hvalid hagenda
  cases h with
  | apply appliedAt =>
    obtain ⟨hnames, hfound⟩ := agenda_apply_eq_ok_iff.mp hagenda
    refine agenda_apply_eq_ok_iff.mpr
      ⟨?_, fun file hfile => hfound file (List.mem_append_right _ hfile)⟩
    rw [Ledger.State.pending_withBatch, ← hnames, List.filter_map]
    exact congrArg _ (filter_names_of_nodup hnodup).symm
  | rollBack =>
    obtain ⟨hidentities, hfound⟩ := agenda_rollBack_eq_ok_iff.mp hagenda
    refine agenda_rollBack_eq_ok_iff.mpr
      ⟨?_, fun file hfile => hfound file (List.mem_append_right _ hfile)⟩
    have hcurrent := currentBatch_of_rest hvalid hagenda hrest
    rw [Ledger.State.lastBatch_without hcurrent]
    calc
      rest.map (·.identity)
      _ = ((done ++ rest).filter (!(done.map (·.name)).contains ·.name)).map (·.identity) := by
        rw [filter_names_of_nodup hnodup]
      _ = ((done ++ rest).map (·.identity)).filter (!(done.map (·.name)).contains ·.1) := by
        rw [List.filter_map]
        rfl
      _ = (state.lastBatch.map (·.identity)).filter (!(done.map (·.name)).contains ·.1) := by
        rw [hidentities]
      _ = (state.lastBatch.filter (!(done.map (·.name)).contains ·.file)).map (·.identity) := by
        rw [List.filter_map]
        rfl

theorem fulfilled (h : Tells state files direction new) (hvalid : state.Valid)
    (hrange : state.InRange) (hagenda : agenda read direction state = .ok files) :
    Fulfilled state files direction (some new.encode) := by
  cases h with
  | apply appliedAt hutf8 =>
    rw [Fulfilled, Ledger.entries_encode (Ledger.State.withBatch_inRange hrange _ _) hutf8]
    simp [Ledger.State.withBatch, Ledger.Entry.identity, MigrationFile.identity]
  | rollBack =>
    intro _
    have hsame : ∀ e ∈ state.entries,
        (files.map (·.name)).contains e.file = (e.batch == state.currentBatch) := by
      intro e he
      rw [Course.names_of_requireUnmodified hagenda, Bool.eq_iff_iff, List.contains_iff_mem,
        hvalid.mem_files_lastBatch he, beq_iff_eq]
    rw [Ledger.State.without_congr hsame]

theorem fulfilled_of_rest (h : Tells state done direction new) (hvalid : state.Valid)
    (hagenda : agenda read direction state = .ok (done ++ rest)) (hrest : rest ≠ [])
    {content? : Option Text} (hfulfilled : Fulfilled new rest direction content?) :
    Fulfilled state (done ++ rest) direction content? := by
  cases h with
  | apply appliedAt =>
    rw [Fulfilled] at hfulfilled ⊢
    rw [hfulfilled]
    simp [Ledger.State.withBatch, Ledger.Entry.identity, MigrationFile.identity]
  | rollBack =>
    intro _
    rw [hfulfilled hrest, currentBatch_of_rest hvalid hagenda hrest, Ledger.State.without_without]
    -- What was removed before is of the newest batch, too.
    have hsame : ∀ e ∈ state.entries,
        ((done.map (·.name)).contains e.file || e.batch == state.currentBatch) =
          (e.batch == state.currentBatch) := by
      intro e he
      rw [Bool.or_eq_right_iff_imp, List.contains_iff_mem, beq_iff_eq,
        ← hvalid.mem_files_lastBatch he, ← Course.names_of_requireUnmodified hagenda,
        List.map_append]
      exact List.mem_append_left _
    rw [Ledger.State.without_congr hsame]

end Tells

end Run

end SchemaMigration

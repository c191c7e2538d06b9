import SchemaMigration.Proofs.Migration.FileName
import SchemaMigration.Proofs.Run.Agenda
import SchemaMigration.Proofs.Run.Footprint

/-!
This module contains what a run finds in a migrations directory that stays as it is: the names of
the migration files in increasing order, and their contents, if these are within the limits.
-/

namespace SchemaMigration

open Program (Ensures)

inductive Decides {α : Type} (P : Prop) (a : α) : Except Failure α → Prop
  | granted (h : P) : Decides P a (.ok a)
  | refused (h : ¬ P) (e : Failure) : Decides P a (.error e)

theorem forM_decides {β : Type} {P : β → Prop} {f : β → Except Failure Unit}
    (h : ∀ b, Decides (P b) () (f b)) (items : List β) :
    Decides (∀ b ∈ items, P b) () (items.forM f) := by
  induction items with
  | nil => exact .granted nofun
  | cons item items ih =>
    rw [List.forall_mem_cons]
    change Decides _ () (f item >>= fun _ => items.forM f)
    have hfirst := h item
    generalize f item = outcome at hfirst
    cases hfirst with
    | refused hitem e => exact .refused (fun hall => hitem hall.1) e
    | granted hitem =>
      rw [ok_bind]
      generalize items.forM f = outcome at ih
      cases ih with
      | refused hitems e => exact .refused (fun hall => hitems hall.2) e
      | granted hitems => exact .granted ⟨hitem, hitems⟩

theorem Path.join_injective (directory : Path) : Function.Injective directory.join := by
  intro name name' h
  unfold join at h
  split at h
  . exact h
  . split at h
    . exact List.append_cancel_left h
    . exact List.tail_eq_of_cons_eq (List.append_cancel_left h)

namespace Migration

structure Directory where
  listing : World.Listing
  content : Text → Text

namespace Directory

def names (d : Directory) : List Text := fileNames d.listing

def file (d : Directory) (name : Text) : MigrationFile := ⟨name, d.content name⟩

def files (d : Directory) : List MigrationFile := d.names.map d.file

def size (d : Directory) (name : Text) : Nat := (d.content name).length

def total (d : Directory) (names : List Text) : Nat :=
  names.foldr (fun name n => d.size name + n) 0

def Fits (d : Directory) (limits : Limits) : Prop :=
  limits.enabled = true →
    (∀ name ∈ d.names, d.size name ≤ limits.maxFile) ∧ d.total d.names ≤ limits.maxTotal

def Matches (d : Directory) (state : Ledger.State) : Prop :=
  ∀ e ∈ state.entries, e.file ∈ d.names ∧ (d.file e.file).hash = e.hash

def pending (d : Directory) (state : Ledger.State) : List MigrationFile :=
  (state.pending d.names).map d.file

def Shows (d : Directory) (path : Path) : (r : World.Request) → World.Reply r → Prop
  | .isDirectory p, reply => p = path → reply = true
  | .list p, reply => p = path → reply = .ok d.listing
  | .size p, reply => ∀ name ∈ d.names, p = path.join name → reply = .ok (d.size name)
  | .read p, reply => ∀ name ∈ d.names, p = path.join name → reply = .ok (some (d.content name))
  | _, _ => True

def server (d : Directory) (path : Path) : Server World Unit where
  Admits _ _ := True
  Serves r _ reply _ := d.Shows path r reply

variable {d : Directory} {path : Path} {names : List Text} {state : Ledger.State}

theorem ne_nil_of_mem_names {name : Text} (h : name ∈ d.names) : name ≠ [] := by
  rintro rfl
  exact absurd (mem_fileNames.mp h).2 (by decide)

@[simp]
theorem names_files (d : Directory) : d.files.map (·.name) = d.names := by
  simp [files, file, Function.comp_def]

theorem names_pending (d : Directory) (state : Ledger.State) :
    (d.pending state).map (·.name) = state.pending d.names := by
  simp [pending, file, Function.comp_def]

theorem find?_files {name : Text} (h : name ∈ d.names) :
    MigrationFile.find? d.files name = some (d.file name) := by
  cases hfind : MigrationFile.find? d.files name with
  | none =>
    have hnone := List.find?_eq_none.mp hfind (d.file name) (List.mem_map_of_mem h)
    exact absurd (beq_self_eq_true name) hnone
  | some found =>
    have hname := List.find?_some hfind
    obtain ⟨name', _, rfl⟩ := List.mem_map.mp (List.mem_of_find?_eq_some hfind)
    rw [show name' = name from beq_iff_eq.mp hname]

theorem find?_files_eq_none {name : Text} (h : name ∉ d.names) :
    MigrationFile.find? d.files name = none := by
  apply List.find?_eq_none.mpr
  intro found hfound hname
  rw [← beq_iff_eq.mp hname, ← names_files] at h
  exact h (List.mem_map_of_mem hfound)

theorem agenda_eq_pending (d : Directory) (state : Ledger.State) :
    Run.agenda d.files .apply state = .ok (d.pending state) := by
  apply Run.agenda_apply_eq_ok_iff.mpr
  rw [names_files, names_pending]
  refine ⟨rfl, fun found hfound => ?_⟩
  obtain ⟨name, hname, rfl⟩ := List.mem_map.mp hfound
  exact find?_files (Ledger.State.mem_pending.mp hname).1

theorem validate_decides (d : Directory) (state : Ledger.State) :
    Decides (d.Matches state) () (state.validate d.files) := by
  refine forM_decides (fun e => ?_) state.entries
  by_cases hname : e.file ∈ d.names
  . rw [find?_files hname]
    dsimp only
    split
    . next hhash => exact .granted ⟨hname, beq_iff_eq.mp hhash⟩
    . next hhash => exact .refused (fun h => hhash (beq_iff_eq.mpr h.2)) _
  . rw [find?_files_eq_none hname]
    exact .refused (fun h => hname h.1) _

theorem listFiles_ensures (d : Directory) (path : Path) :
    Ensures (d.server path) (listFiles path) () fun outcome _ => outcome = .ok d.names := by
  unfold listFiles
  rw [Program.ensures_call_bind]
  refine ⟨trivial, fun isDirectory _ hshows => ?_⟩
  rw [hshows rfl, if_pos rfl, Program.ensures_call_bind]
  refine ⟨trivial, fun found _ hshows => ?_⟩
  rw [hshows rfl]
  rfl

theorem readSizes_decides (limit : Nat) (h : names ⊆ d.names) :
    Ensures (d.server path) (readSizes limit (names.map path.join)) () fun outcome _ =>
      Decides (∀ name ∈ names, d.size name ≤ limit)
        (names.map fun name => (path.join name, d.size name)) outcome := by
  induction names with
  | nil => exact .granted nofun
  | cons name names ih =>
    rw [List.cons_subset] at h
    rw [List.map_cons, readSizes, Program.ensures_call_bind]
    refine ⟨trivial, fun size _ hshows => ?_⟩
    rw [hshows name h.1 rfl, List.forall_mem_cons]
    dsimp only
    split
    . next hlarge => exact .refused (fun hsmall => absurd hsmall.1 (Nat.not_le.mpr hlarge)) _
    . next hsmall =>
      rw [Nat.not_lt] at hsmall
      rw [Program.ensures_bind]
      apply (ih h.2).mono
      rintro _ _ (hsizes | ⟨hsizes, e⟩)
      . exact .granted ⟨hsmall, hsizes⟩
      . exact .refused (fun hall => hsizes hall.2) e

theorem foldl_sizes (names : List Text) (n : Nat) :
    (names.map fun name => (path.join name, d.size name)).foldl (fun n size => n + size.2) n =
      n + d.total names := by
  induction names generalizing n with
  | nil => rfl
  | cons name names ih =>
    rw [List.map_cons, List.foldl_cons, ih]
    exact Nat.add_assoc n (d.size name) (d.total names)

theorem checkSizes_decides (limits : Limits) (d : Directory) (path : Path) :
    Ensures (d.server path) (checkSizes limits (d.names.map path.join)) () fun outcome _ =>
      Decides ((∀ name ∈ d.names, d.size name ≤ limits.maxFile) ∧
        d.total d.names ≤ limits.maxTotal) () outcome := by
  unfold checkSizes
  rw [Program.ensures_bind]
  apply (readSizes_decides limits.maxFile (List.Subset.refl d.names)).mono
  rintro _ _ (hsizes | ⟨hsizes, e⟩)
  . change Ensures _ (ite _ _ _) _ _
    rw [foldl_sizes, Nat.zero_add]
    split
    . next hlarge => exact .refused (fun hall => absurd hall.2 (Nat.not_le.mpr hlarge)) _
    . next hsmall => exact .granted ⟨hsizes, Nat.not_lt.mp hsmall⟩
  . exact .refused (fun hall => hsizes hall.1) e

theorem read_ensures {name : Text} (h : name ∈ d.names) :
    Ensures (d.server path) (File.read (path.join name)) () fun outcome _ =>
      outcome = .ok (d.content name) := by
  unfold File.read File.readIfExists
  refine ⟨trivial, fun reply _ hshows => ?_⟩
  rw [hshows name h rfl]
  rfl

theorem readFiles_ensures (h : names ⊆ d.names) :
    Ensures (d.server path)
      (names.mapM fun name => return MigrationFile.mk name (← File.read (path.join name))) ()
      fun outcome _ => outcome = .ok (names.map d.file) := by
  suffices hloop : ∀ done, Ensures (d.server path)
      (List.mapM.loop (fun name => return MigrationFile.mk name (← File.read (path.join name)))
        names done) () fun outcome _ => outcome = .ok (done.reverse ++ names.map d.file) from
    hloop []
  induction names with
  | nil =>
    intro done
    rw [List.map_nil, List.append_nil]
    rfl
  | cons name names ih =>
    rw [List.cons_subset] at h
    intro done
    unfold List.mapM.loop
    rw [Program.bind_assoc, Program.ensures_bind]
    apply (read_ensures h.1).mono
    rintro _ _ rfl
    have hnext := ih h.2 (d.file name :: done)
    rw [List.reverse_cons, List.append_assoc] at hnext
    exact hnext

theorem loadFiles_decides (limits : Limits) (d : Directory) (path : Path) :
    Ensures (d.server path) (loadFiles path limits) () fun outcome _ =>
      Decides (d.Fits limits) d.files outcome := by
  have hread : d.Fits limits → Ensures (d.server path) (d.names.mapM fun name =>
      return MigrationFile.mk name (← File.read (path.join name))) ()
        fun outcome _ => Decides (d.Fits limits) d.files outcome := by
    intro hfits
    apply (readFiles_ensures (List.Subset.refl d.names)).mono
    rintro _ _ rfl
    exact .granted hfits
  unfold loadFiles
  rw [Program.ensures_bind]
  apply (listFiles_ensures d path).mono
  rintro _ _ rfl
  change Ensures _ (ite _ _ _) _ _
  split
  . next henabled =>
    rw [Program.ensures_bind]
    apply (checkSizes_decides limits d path).mono
    rintro _ _ (hsizes | ⟨hsizes, e⟩)
    . exact hread fun _ => hsizes
    . exact .refused (fun hfits => hsizes (hfits henabled)) e
  . next hdisabled => exact hread fun henabled => absurd henabled hdisabled

end Directory

end Migration

end SchemaMigration

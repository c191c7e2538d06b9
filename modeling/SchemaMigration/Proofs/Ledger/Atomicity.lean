import SchemaMigration.Proofs.Ledger.Memory

/-!
This module contains what a mutation of a ledger leaves behind when it fails on the file system,
whatever requests fail and whatever others do to all other files meanwhile.
-/

namespace SchemaMigration.Ledger

open Program (Ensures Exec)

/-- A world in which everything succeeds but to force a directory to disk. -/
def unsyncing : (r : World.Request) → Files → World.Reply r × Files
  | .syncDirectory _, files => (.error .inputOutput, files)
  | r, files => World.obliging [] r files

theorem unsyncing_serves {mine : Path → Prop} (r : World.Request) (files : Files) :
    (World.server mine).Serves r files (unsyncing r files).1 (unsyncing r files).2 := by
  cases r with
  | syncDirectory directory => exact ⟨files, fun _ _ => rfl, rfl⟩
  | _ => exact World.obliging_serves [] _ files

theorem exec_unsyncing {α : Type} {p : Program World Failure α} {files : Files}
    {result : Except Failure α × Files} (h : p.run unsyncing files = result)
    (mine : Path → Prop) : Exec (World.server mine) p files result.1 result.2 := by
  subst h
  exact Exec.run unsyncing_serves p files

/-- In that world the first batch is recorded, and yet the operation fails. -/
theorem exists_failed_record :
    let l : Ledger := .new (ascii "ledger.json")
    let m : Mutation := .record [⟨ascii "1.sigl", ascii "x"⟩]
    ∃ (e : Failure) (files' : Files),
      Exec (World.server (File.Owns l.path)) (l.call ⟨0, 0⟩ (m.program ·)) (fun _ => none)
          (.ok (.error e, l)) files' ∧
        recorded (files' l.path) = [ascii "1.sigl"] := by
  intro l m
  obtain ⟨result, hresult, hfailed, hrecorded⟩ : ∃ result,
      (l.call ⟨0, 0⟩ (m.program ·)).run unsyncing (fun _ => none) = result ∧
        result.1.toOption.map (fun (outcome, l') => (outcome.isOk, l')) = some (false, l) ∧
        recorded (result.2 l.path) = [ascii "1.sigl"] :=
    ⟨_, rfl, by decide +kernel⟩
  have hexec := exec_unsyncing hresult (File.Owns l.path)
  obtain ⟨outcome, files'⟩ := result
  match outcome, hfailed with
  | .ok (.error e, _), rfl => exact ⟨e, files', hexec, hrecorded⟩

/--
A mutation that fails leaves the ledger file as it was, unless all that failed is to force the
directory to disk: then the file holds what the mutation makes of the state that it had. The ledger
itself is the same in either case.
-/
theorem file_of_failed_mutation {l : Ledger} {m : Mutation} {options : Lease.Options}
    {files files' : Files} {outcome : Except Failure (Except Failure Ledger × Ledger)}
    (hexec : Exec (World.server (File.Owns l.path)) (l.call options (m.program ·)) files outcome
      files') :
    ∃ result l', outcome = .ok (result, l') ∧ ∀ e, result = .error e →
      (files' l.path = files l.path ∨
        File.Unsynced l.path e ∧ ∃ old new, decodeFile l.path (files l.path) = .ok old ∧
          m.Writes old new ∧ files' l.path = some new.encode) ∧
      l' = l := by
  obtain ⟨result, rfl, s, hsees, hends⟩ := ends_of_call (o := .mutate m) hexec
  refine ⟨result, _, rfl, ?_⟩
  rintro e rfl
  refine ⟨?_, rfl⟩
  cases hends with
  | refused => exact .inl hsees
  | @failed _ v hturn hfault =>
    obtain ⟨start?, written?⟩ := v
    obtain ⟨rfl, hcontent⟩ := hsees
    cases hturn with
    | nothing => exact .inl hcontent
    | state hdecode hwrites =>
      cases hwrites with
      | mutate hwrites => exact .inr ⟨hfault m rfl nofun, _, _, hdecode, hwrites, hcontent⟩

/-- So a mutation that fails may have changed the ledger file. -/
theorem failed_mutation_changes_file :
    ∃ (l : Ledger) (m : Mutation) (options : Lease.Options) (files files' : Files) (e : Failure),
      Exec (World.server (File.Owns l.path)) (l.call options (m.program ·)) files
        (.ok (.error e, l)) files' ∧ files' l.path ≠ files l.path := by
  obtain ⟨e, files', hexec, hrecorded⟩ := exists_failed_record
  refine ⟨_, _, _, _, files', e, hexec, ?_⟩
  intro hsame
  rw [hsame] at hrecorded
  cases hrecorded

/-- What that file holds then is the batch, and the failure is that of the directory. -/
theorem file_of_failed_record :
    let l : Ledger := .new (ascii "ledger.json")
    let m : Mutation := .record [⟨ascii "1.sigl", ascii "x"⟩]
    ∃ (e : Failure) (files' : Files),
      Exec (World.server (File.Owns l.path)) (l.call ⟨0, 0⟩ (m.program ·)) (fun _ => none)
          (.ok (.error e, l)) files' ∧
        File.Unsynced l.path e ∧ ∃ new, m.Writes .empty new ∧
          files' l.path = some new.encode := by
  intro l m
  obtain ⟨e, files', hexec, hrecorded⟩ := exists_failed_record
  obtain ⟨_, _, houtcome, hfailed⟩ := file_of_failed_mutation hexec
  cases houtcome
  cases (hfailed e rfl).1 with
  | inl hsame =>
    rw [hsame] at hrecorded
    cases hrecorded
  | inr hchanged =>
    obtain ⟨he, old, new, hdecode, hwrites, hnew⟩ := hchanged
    cases hdecode
    exact ⟨e, files', hexec, he, new, hwrites, hnew⟩

end SchemaMigration.Ledger

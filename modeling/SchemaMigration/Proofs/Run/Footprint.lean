import SchemaMigration.Migration.Directory
import SchemaMigration.Proofs.Files
import SchemaMigration.Proofs.Log
import SchemaMigration.Run.Connection

/-!
This module contains the requests by which the migration files are loaded and by which a connection
to the database is made. None of them changes a file, nor is anything logged that tells of
migrations or of the ledger.
-/

namespace SchemaMigration

open Program (Spares Within)

namespace Migration

theorem listFiles_reads (directory : Path) : Within World.Reads (listFiles directory) := by
  unfold listFiles
  refine Within.bind (Within.call trivial) fun isDirectory => ?_
  split
  . refine Within.bind (Within.call trivial) fun found => ?_
    cases found with
    | error errno => exact Within.throw _
    | ok found => exact Within.pure _
  . exact Within.throw _

theorem readSizes_reads (limit : Nat) (paths : List Path) :
    Within World.Reads (readSizes limit paths) := by
  induction paths with
  | nil => exact Within.pure _
  | cons file paths ih =>
    unfold readSizes
    refine Within.bind (Within.call trivial) fun size => ?_
    cases size with
    | error errno => exact Within.throw _
    | ok size =>
      dsimp only
      split
      . exact Within.throw _
      . exact Within.bind ih fun _ => Within.pure _

theorem checkSizes_reads (limits : Limits) (paths : List Path) :
    Within World.Reads (checkSizes limits paths) := by
  unfold checkSizes
  refine Within.bind (readSizes_reads limits.maxFile paths) fun sizes => ?_
  dsimp only
  split
  . exact Within.throw _
  . exact Within.pure _

theorem loadFiles_reads (directory : Path) (limits : Limits) :
    Within World.Reads (loadFiles directory limits) := by
  have hread : ∀ names : List Text, Within World.Reads (names.mapM fun name =>
      return MigrationFile.mk name (← File.read (directory.join name))) := by
    intro names
    apply Within.mapM
    intro name
    exact Within.bind (File.read_reads _) fun _ => Within.pure _
  unfold loadFiles
  refine Within.bind (listFiles_reads directory) fun names => ?_
  split
  . exact Within.bind (checkSizes_reads limits _) fun _ => hread names
  . exact hread names

end Migration

namespace Connection

def Makes : World.Request → Prop
  | .log entry => entry.isAside = true
  | .connect | .sleep _ => True
  | _ => False

theorem Makes.spares {r : World.Request} (h : Makes r) (path : Path) : World.Spares path r := by
  cases r with
  | log | connect | sleep => trivial
  | _ => cases h

theorem tryConnect_makes (attempt : Nat) : Within Makes (tryConnect attempt) := by
  unfold tryConnect
  refine Within.bind (Within.call trivial) fun connected => ?_
  cases connected with
  | error text => exact Within.pure _
  | ok _ =>
    dsimp only
    split
    . exact Within.bind (Within.call rfl) fun _ => Within.pure _
    . exact Within.pure _

theorem giveUp_makes (attempt : Nat) (cause : Text) : Within Makes (giveUp attempt cause) := by
  unfold giveUp
  exact Within.bind (Within.call rfl) fun _ => Within.throw _

theorem connectFrom_makes (policy : Policy) (remaining attempt : Nat) :
    Within Makes (connectFrom policy World.pause remaining attempt) := by
  induction remaining generalizing attempt with
  | zero =>
    unfold connectFrom
    refine Within.bind (tryConnect_makes attempt) fun cause? => ?_
    cases cause? with
    | none => exact Within.pure _
    | some cause => exact giveUp_makes attempt cause
  | succ remaining ih =>
    unfold connectFrom
    refine Within.bind (tryConnect_makes attempt) fun cause? => ?_
    cases cause? with
    | none => exact Within.pure _
    | some cause =>
      dsimp only
      split
      . refine Within.bind (Within.call rfl) fun _ => ?_
        exact Within.bind (Within.pause trivial) fun _ => ih (attempt + 1)
      . exact giveUp_makes attempt cause

theorem connectFrom_spares (path : Path) (policy : Policy) (remaining attempt : Nat) :
    Spares path (connectFrom policy World.pause remaining attempt) :=
  Within.mono (fun _ h => h.spares path) (connectFrom_makes policy remaining attempt)

end Connection

end SchemaMigration

import SchemaMigration.Command
import SchemaMigration.Host

/-!
This module contains the program.
-/

open SchemaMigration in
def main (args : List String) : IO UInt32 := do
  let filter ← IO.mkRef (⟨.info, true, true⟩ : Log.Filter)
  let guard ← IO.mkRef none
  let host : Host := ⟨filter, guard⟩
  let level? := (← IO.getEnv "SIGIL_LOG_LEVEL").map Host.ofString
  match ← host.run (Command.run level? (args.map Host.ofString)) with
  | .ok output =>
    (← IO.getStdout).write ⟨output.out.toArray⟩
    (← IO.getStderr).write ⟨output.err.toArray⟩
    return output.exit.toUInt32
  | .error e =>
    (← IO.getStderr).write ⟨e.report.toArray⟩
    return 2

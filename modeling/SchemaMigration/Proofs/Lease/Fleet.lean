import Mathlib.Logic.Function.Basic
import SchemaMigration.Lease.Lease
import SchemaMigration.Proofs.Files

/-!
This module contains leases that compete for one lock file: any number of them, in any number of
processes on any number of hosts. One step of the whole is one request of one lease. Between any two
steps a process may start or crash.
-/

namespace SchemaMigration

namespace Lease

/--
Leases `ι` in processes `π` on hosts `η` that share a lock file. No two hosts have one name.
-/
structure Fleet (ι π η : Type) where
  path : Path
  process : ι → π
  host : π → η
  pid : π → Int
  hostName : η → Text
  hostName_injective : Function.Injective fun h => cutHostName (hostName h)

inductive Status where
  | unstarted
  | running
  | dead
  deriving DecidableEq

/-- A lease, or a lease with the rest of the program that it is in. -/
inductive Actor where
  | idle (lease : Lease)
  | busy (lease : Lease) (program : Program World Failure Lease)

structure Shared (ι : Type) where
  files : Files
  guard? : Path → Option ι
  tokens : List Text

structure State (ι π : Type) where
  shared : Shared ι
  status : π → Status
  actor : ι → Actor

/-- The result of a program that does nothing more than to write to the log. -/
def settled? : Program World Failure Lease → Option Lease
  | .done lease => some lease
  | .ask (.log _) next => settled? (next ())
  | _ => none

/--
The token of a lease that is held. A lease is held from the point where its lock has been read back,
and no longer when its release begins.
-/
def Actor.token? : Actor → Option Text
  | idle lease => lease.token?
  | busy _ program => (settled? program).bind (·.token?)

variable {ι π η : Type} [DecidableEq ι] [DecidableEq π]

namespace Fleet

def hostOf (f : Fleet ι π η) (i : ι) : η := f.host (f.process i)

/--
The replies that a lease may get, and what becomes of what is shared. Clocks show anything, and any
request on files may fail.
-/
def Answers (f : Fleet ι π η) (status : π → Status) (i : ι) :
    (r : World.Request) → Shared ι → World.Reply r → Shared ι → Prop
  | .lockGuard guard, s, .ok (), s' =>
    s.guard? guard = none ∧ s' = { s with guard? := Function.update s.guard? guard (some i) }
  | .lockGuard _, s, .error _, s' => s' = s
  | .closeGuard guard, s, _, s' =>
    s' = if s.guard? guard = some i then
        { s with guard? := Function.update s.guard? guard none }
      else s
  | .hostName, s, reply, s' => reply = some (f.hostName (f.hostOf i)) ∧ s' = s
  | .processId, s, reply, s' => reply = f.pid (f.process i) ∧ s' = s
  | .isAlive pid, s, reply, s' =>
    (reply = false → ∀ p, status p = .running → f.host p = f.hostOf i → f.pid p ≠ pid) ∧ s' = s
  | .freshName, s, token, s' => token ∉ s.tokens ∧ s' = { s with tokens := token :: s.tokens }
  | r, s, reply, s' => ∃ files, World.Effect r reply s.files files ∧ s' = { s with files }

def Runs (f : Fleet ι π η) (s : State ι π) (i : ι) : Prop := s.status (f.process i) = .running

def dropGuards (f : Fleet ι π η) (p : π) (guard? : Path → Option ι) : Path → Option ι :=
  fun path => (guard? path).filter fun i => f.process i ≠ p

inductive Step (f : Fleet ι π η) : State ι π → State ι π → Prop
  | start {s : State ι π} (p : π) (h : s.status p = .unstarted) :
    Step f s { s with status := Function.update s.status p .running }
  | crash {s : State ι π} (p : π) (h : s.status p = .running) :
    Step f s { s with
      shared := { s.shared with guard? := f.dropGuards p s.shared.guard? }
      status := Function.update s.status p .dead }
  | acquire {s : State ι π} {i : ι} {l : Lease} (timeout : Int) (hruns : f.Runs s i)
    (hactor : s.actor i = .idle l) :
    Step f s { s with actor := Function.update s.actor i (.busy l (l.acquire timeout)) }
  | release {s : State ι π} {i : ι} {l : Lease} (hruns : f.Runs s i)
    (hactor : s.actor i = .idle l) :
    Step f s { s with actor := Function.update s.actor i (.busy l l.release) }
  | request {s : State ι π} {i : ι} {l : Lease} {r : World.Request}
    {next : World.Reply r → Program World Failure Lease} {reply : World.Reply r}
    {shared : Shared ι} (hruns : f.Runs s i) (hactor : s.actor i = .busy l (.ask r next))
    (hanswers : f.Answers s.status i r s.shared reply shared) :
    Step f s { s with
      shared
      actor := Function.update s.actor i (.busy l (next reply)) }
  | finish {s : State ι π} {i : ι} {l l' : Lease} (hruns : f.Runs s i)
    (hactor : s.actor i = .busy l (.done l')) :
    Step f s { s with actor := Function.update s.actor i (.idle l') }
  | abort {s : State ι π} {i : ι} {l : Lease} {e : Failure} (hruns : f.Runs s i)
    (hactor : s.actor i = .busy l (.fail e)) :
    Step f s { s with actor := Function.update s.actor i (.idle (Lease.new l.path l.options)) }

/--
Nothing has happened yet. There may be a lock file from earlier on, whose token is not drawn again.
-/
structure Initial (f : Fleet ι π η) (s : State ι π) : Prop where
  guards : ∀ path, s.shared.guard? path = none
  tokens : ∀ content, s.shared.files f.path = some content →
    (Record.decode content).token ∈ s.shared.tokens
  status : ∀ p, s.status p = .unstarted
  actors : ∀ i, ∃ options, s.actor i = .idle (Lease.new f.path options)

inductive Reachable (f : Fleet ι π η) : State ι π → Prop
  | initial {s : State ι π} (h : f.Initial s) : Reachable f s
  | step {s s' : State ι π} (h : Reachable f s) (hstep : f.Step s s') : Reachable f s'

end Fleet

end Lease

end SchemaMigration

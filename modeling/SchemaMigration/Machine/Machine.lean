import SchemaMigration.Machine.Disk

/-!
This module contains a machine that serves every request of a program: a disk, a clock, processes, a
log, and a database that follows a script. System calls may be planned to fail.
-/

namespace SchemaMigration

namespace Machine

inductive Outcome where
  | succeed
  | fail (errno : Errno)
  /-- Only so many bytes are taken, at least one. -/
  | short (count : Nat)
  deriving DecidableEq, Repr

/-- The outcomes of the next uses of the system calls that may fail; later ones succeed. -/
structure Plan where
  write : List Outcome
  /-- Those of texts that are written to streams. -/
  stream : List Outcome
  sync : List Outcome
  close : List Outcome
  rename : List Outcome
  link : List Outcome
  lock : List Outcome
  deriving DecidableEq, Repr

def Plan.none : Plan := ⟨[], [], [], [], [], [], []⟩

def Plan.interruptions (plan : Plan) : Nat :=
  plan.write.count (.fail .interrupted) + plan.lock.count (.fail .interrupted)

inductive Edit where
  /-- Writes a file; with a size, the content is cut or filled with zero bytes. -/
  | write (path : Path) (content : Text) (size? : Option Nat)
  | makeDirectory (path : Path)
  | remove (path : Path)
  | advance (millis : Int)
  | die (pid : Int)
  deriving DecidableEq, Repr

structure Transaction where
  edits : List Edit
  error? : Option Text
  deriving DecidableEq, Repr

/-- What the database does: the outcomes of the next uses; later ones succeed. -/
structure Script where
  connects : List (Option Text)
  transactions : List Transaction
  disconnectError? : Option Text
  /-- What happens at the end of a sleep, by its number. -/
  onSleep : List (Nat × Edit)
  deriving DecidableEq, Repr

def Script.none : Script := ⟨[], [], Option.none, []⟩

inductive Call where
  | connect
  | transaction (statements : List Text)
  | disconnect
  deriving DecidableEq, Repr

/-- What has been observed on a machine, the latest first. Sleeps are in nanoseconds. -/
structure Trace where
  calls : List Call
  sleeps : List Int
  records : List Log.Record
  deriving DecidableEq, Repr

def Trace.none : Trace := ⟨[], [], []⟩

end Machine

/-- A machine. Its wall clock counts milliseconds, the other one nanoseconds. -/
structure Machine where
  disk : Disk
  clock : Int
  ticks : Int
  hostName : Option Text
  pid : Int
  alive : List Int
  denied : List Int
  names : Nat
  filter : Log.Filter
  plan : Machine.Plan
  script : Machine.Script
  trace : Machine.Trace
  deriving DecidableEq, Repr

namespace Machine

def writeFile (d : Disk) (path : Path) (content : Text) : Disk :=
  let d := (d.makeDirectories path.parent).2
  (d.put path content).toOption.getD d

def resize (content : Text) : Option Nat → Text
  | none => content
  | some size => content.take size ++ List.replicate (size - content.length) 0

def edit (m : Machine) : Edit → Machine
  | .write path content size? => { m with disk := writeFile m.disk path (resize content size?) }
  | .makeDirectory path => { m with disk := (m.disk.makeDirectories path).2 }
  | .remove path => { m with disk := m.disk.removeAll path }
  | .advance millis =>
    { m with clock := m.clock + millis, ticks := m.ticks + millis * 1000000 }
  | .die pid => { m with alive := m.alive.filter (· != pid) }

def Edit.directory? : Edit → Option Path
  | .write path _ _ => if path.parent.isEmpty then none else some path.parent
  | .makeDirectory path => some path
  | _ => none

/-- Why the directories for a change from outside cannot be created, if that is so. -/
def refusal? (m : Machine) (e : Edit) : Option (Path × Errno) :=
  match e.directory? with
  | none => none
  | some path =>
    match (m.disk.makeDirectories path).1 with
    | .ok _ => none
    | .error errno => some (path, errno)

/-- The name with a number; names are written as UUIDs. -/
def nameOf (n : Nat) : Text :=
  ascii "6f1d0c52-9a3e-4b87-a5c4-" ++ Text.padZeros 12 (Text.ofNat n)

def next : List Outcome → Outcome × List Outcome
  | [] => (.succeed, [])
  | outcome :: rest => (outcome, rest)

def taken (data : Text) : Outcome → Except Errno Nat
  | .succeed => .ok data.length
  | .fail errno => .error errno
  | .short count => .ok (min (max count 1) data.length)

def replyOf : Outcome → Except Errno Unit
  | .fail errno => .error errno
  | _ => .ok ()

def onDisk (m : Machine) (change : Except Errno Disk) : Except Errno Unit × Machine :=
  match change with
  | .ok disk => (.ok (), { m with disk })
  | .error errno => (.error errno, m)

def noteCall (m : Machine) (call : Call) : Machine :=
  { m with trace := { m.trace with calls := call :: m.trace.calls } }

def write (m : Machine) (path : Path) (data : Text) : Except Errno Nat × Machine :=
  let (outcome, rest) := next m.plan.write
  let m := { m with plan := { m.plan with write := rest } }
  match taken data outcome with
  | .error errno => (.error errno, m)
  | .ok count =>
    match m.disk.append path (data.take count) with
    | .error errno => (.error errno, m)
    | .ok disk => (.ok count, { m with disk })

def streamed (content : Text) : Outcome → Text
  | .succeed => content
  | .fail _ => []
  | .short count => content.take count

def openStream (m : Machine) (path : Path) : Bool × Machine :=
  match m.disk.put path [] with
  | .error _ => (false, m)
  | .ok disk => (true, { m with disk })

/-- Writes a text to a stream as far as that is planned; whether all of it was written. -/
def writeStream (m : Machine) (path : Path) (content : Text) : Bool × Machine :=
  let (outcome, rest) := next m.plan.stream
  let m := { m with plan := { m.plan with stream := rest } }
  match m.disk.put path (streamed content outcome) with
  | .error _ => (false, m)
  | .ok disk => (streamed content outcome == content, { m with disk })

def sync (m : Machine) : Except Errno Unit × Machine :=
  let (outcome, rest) := next m.plan.sync
  (replyOf outcome, { m with plan := { m.plan with sync := rest } })

def close (m : Machine) : Except Errno Unit × Machine :=
  let (outcome, rest) := next m.plan.close
  (replyOf outcome, { m with plan := { m.plan with close := rest } })

def lock (m : Machine) : Except Errno Unit × Machine :=
  let (outcome, rest) := next m.plan.lock
  (replyOf outcome, { m with plan := { m.plan with lock := rest } })

def rename (m : Machine) (source target : Path) : Except Errno Unit × Machine :=
  let (outcome, rest) := next m.plan.rename
  let m := { m with plan := { m.plan with rename := rest } }
  match replyOf outcome with
  | .error errno => (.error errno, m)
  | .ok () => m.onDisk (m.disk.rename source target)

def link (m : Machine) (source target : Path) : Except Errno Unit × Machine :=
  let (outcome, rest) := next m.plan.link
  let m := { m with plan := { m.plan with link := rest } }
  match replyOf outcome with
  | .error errno => (.error errno, m)
  | .ok () => m.onDisk (m.disk.link source target)

/-- Lets nanoseconds pass. At the end of the sleep happens what the script says. -/
def sleep (m : Machine) (nanos : Int) : Machine :=
  let m := { m with
    clock := m.clock + ((m.ticks + nanos) / 1000000 - m.ticks / 1000000)
    ticks := m.ticks + nanos
    trace := { m.trace with sleeps := nanos :: m.trace.sleeps } }
  (m.script.onSleep.filter (·.1 == m.trace.sleeps.length)).foldl (fun m e => m.edit e.2) m

def connect (m : Machine) : Except Text Unit × Machine :=
  let m := m.noteCall .connect
  match m.script.connects with
  | [] => (.ok (), m)
  | outcome :: rest =>
    let m := { m with script := { m.script with connects := rest } }
    match outcome with
    | none => (.ok (), m)
    | some text => (.error text, m)

def transaction (m : Machine) (statements : List Text) : Except Text Unit × Machine :=
  let m := m.noteCall (.transaction statements)
  match m.script.transactions with
  | [] => (.ok (), m)
  | t :: rest =>
    let m := { m with script := { m.script with transactions := rest } }
    let m := t.edits.foldl edit m
    match t.error? with
    | none => (.ok (), m)
    | some text => (.error text, m)

def disconnect (m : Machine) : Except Text Unit × Machine :=
  let m := m.noteCall .disconnect
  match m.script.disconnectError? with
  | none => (.ok (), m)
  | some text => (.error text, m)

def log (m : Machine) (entry : Log.Entry) : Machine :=
  match m.filter.record? entry with
  | none => m
  | some record => { m with trace := { m.trace with records := record :: m.trace.records } }

def serve : (r : World.Request) → Machine → World.Reply r × Machine
  | .read path, m => (m.disk.read path, m)
  | .isPresent path, m => ((m.disk.find? path).map Option.isSome, m)
  | .isDirectory path, m => (m.disk.isDirectory path, m)
  | .list path, m => (m.disk.list path, m)
  | .size path, m => (m.disk.size path, m)
  | .makeDirectories path, m =>
    let (isNew, disk) := m.disk.makeDirectories path
    (isNew, { m with disk })
  | .create path, m => m.onDisk (m.disk.create path)
  | .write path data, m => m.write path data
  | .sync _, m => m.sync
  | .close _, m => m.close
  | .rename source target, m => m.rename source target
  | .remove path, m => m.onDisk (m.disk.remove path)
  | .openDirectory path, m =>
    let path := if path.isEmpty then ascii "." else path
    match m.disk.find path with
    | .error errno => (.error errno, m)
    | .ok (_, .file _) => (.error .notDirectory, m)
    | .ok (_, .directory _) => (.ok (), m)
  | .syncDirectory _, m => m.sync
  | .closeDirectory _, m => m.close
  | .openStream path, m => m.openStream path
  | .writeStream path content, m => m.writeStream path content
  | .link source target, m => m.link source target
  | .openGuard path, m => m.onDisk (m.disk.touch path)
  | .lockGuard _, m => m.lock
  | .closeGuard _, m => m.close
  | .hostName, m => (m.hostName, m)
  | .processId, m => (m.pid, m)
  | .isAlive pid, m => (m.alive.contains pid || m.denied.contains pid, m)
  | .now, m => (⟨m.clock⟩, m)
  | .ticks, m => (m.ticks, m)
  | .wait nanos, m => ((), m.sleep nanos)
  | .sleep millis, m => ((), m.sleep (millis * 1000000))
  | .interruptions, m => (m.plan.interruptions, m)
  | .freshName, m => (nameOf m.names, { m with names := m.names + 1 })
  | .connect, m => m.connect
  | .transaction statements, m => m.transaction statements
  | .disconnect, m => m.disconnect
  | .openLog filter, m => ((), { m with filter })
  | .log entry, m => ((), m.log entry)

def run {ε α : Type} (m : Machine) (p : Program World ε α) : Except ε α × Machine :=
  p.run serve m

end Machine

end SchemaMigration

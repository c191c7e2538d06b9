import SchemaMigration.Proofs.Ledger.CleanUp
import SchemaMigration.Proofs.Machine.Replacement

/-!
This module contains how the operations on a ledger clean up on a machine, whatever its system calls
do. No lease is held in the end, and beside the ledger file, its lock and the guard of that lock
everything is as it was.
-/

namespace SchemaMigration.Machine

open Program (Ensures)
open Lease (Surroundings Vigil)

def around (m : Machine) : Surroundings :=
  ⟨m.clock, m.hostName, fun pid => m.alive.contains pid || m.denied.contains pid⟩

theorem nameOf_utf8 (n : Nat) : (nameOf n).isUtf8 = true :=
  Text.append_isUtf8 (by decide) (Text.isUtf8_padZeros 12 (Text.isUtf8_ofNat n))

def host (m : Machine) : Vigil.Host := ⟨m.pid, nameOf, nameOf_utf8, fun _ s => s⟩

def vigil (m : Machine) : Vigil := ⟨⟨m.disk.file?, m.around⟩, m.ticks, m.names, 0, []⟩

/-- What a request leaves alone on a machine, unless it is one for a new name or for a sleep. -/
def setting (m : Machine) : Surroundings × Int × Nat × Int × Script :=
  (m.around, m.ticks, m.names, m.pid, m.script)

variable {m start : Machine} {path : Path} {v : Vigil}

theorem setting_onDisk (m : Machine) (change : Except Errno Disk) :
    (m.onDisk change).2.setting = m.setting := by
  cases change with
  | error errno => rfl
  | ok disk => rfl

theorem setting_planned (m : Machine) (outcome : Outcome) (change : Except Errno Disk) :
    (m.planned outcome change).2.setting = m.setting := by
  obtain ⟨_, hplanned⟩ | ⟨_, _, hplanned⟩ := planned_eq m outcome change
  . rw [hplanned]
  . rw [hplanned]
    rfl

theorem setting_serve {r : World.Request} {mine : Path → Prop} {files : Files} (m : Machine)
    (hr : World.Keeps mine r files) (hname : r ≠ .freshName) :
    (serve r m).2.setting = m.setting := by
  cases r with
  | create | remove | openGuard => exact setting_onDisk m _
  | write p data =>
    simp only [serve, write]
    split
    . rfl
    split
    . rfl
    . rfl
  | rename source target =>
    exact setting_planned { m with plan := { m.plan with rename := (next m.plan.rename).2 } } _ _
  | link source target =>
    exact setting_planned { m with plan := { m.plan with link := (next m.plan.link).2 } } _ _
  | openStream p =>
    simp only [serve, openStream]
    split
    . rfl
    . rfl
  | writeStream p content =>
    simp only [serve, writeStream]
    split
    . rfl
    . rfl
  | openDirectory p =>
    simp only [serve]
    split
    . rfl
    . rfl
    . rfl
  | log entry =>
    simp only [serve, log]
    split
    . rfl
    . rfl
  | freshName => exact absurd rfl hname
  | isPresent | isDirectory | list | size | makeDirectories | wait | sleep | connect | transaction
  | disconnect => cases hr
  | _ => rfl

structure Mirrors (start : Machine) (path : Path) (v : Vigil) (m : Machine) : Prop where
  holds : start.disk.Holds path v.scene.files m.disk
  setting : m.setting = (v.scene.around, v.ticks, v.names, start.pid, start.script)

theorem mirrors_vigil (m : Machine) (path : Path) : m.Mirrors path m.vigil m :=
  ⟨m.disk.holds_self path, rfl⟩

namespace Mirrors

variable (h : start.Mirrors path v m)

include h

theorem around_eq : m.around = v.scene.around := congrArg (·.1) h.setting

theorem ticks_eq : m.ticks = v.ticks := congrArg (·.2.1) h.setting

theorem names_eq : m.names = v.names := congrArg (·.2.2.1) h.setting

theorem pid_eq : m.pid = start.pid := congrArg (·.2.2.2.1) h.setting

theorem script_eq : m.script = start.script := congrArg (·.2.2.2.2) h.setting

theorem clock_eq : m.clock = v.scene.around.clock := congrArg Surroundings.clock h.around_eq

theorem settles {r : World.Request} (hr : World.Keeps path.Beside r v.scene.files)
    (hname : r ≠ .freshName) :
    ∃ files, World.Settles path.Beside True r (Machine.serve r m).1 v.scene.files files ∧
      start.Mirrors path (v.withFiles files) (Machine.serve r m).2 := by
  obtain ⟨files, hsettles, hholds⟩ := serve_settles h.holds hr
  exact ⟨files, hsettles, hholds, (setting_serve m hr hname).trans h.setting⟩

/-- Whatever is planned, a request is served as that of a lease is which nobody else disturbs. -/
theorem serve {r : World.Request} (hquiet : start.script.onSleep = [])
    (hadmits : (Vigil.server start.host path.Beside True).Admits r v) :
    ∃ v', (Vigil.server start.host path.Beside True).Serves r v (Machine.serve r m).1 v' ∧
      start.Mirrors path v' (Machine.serve r m).2 := by
  have hsettles := h.settles (r := r)
  cases r with
  | hostName => exact ⟨v, ⟨congrArg Surroundings.hostName? h.around_eq, rfl⟩, h⟩
  | processId => exact ⟨v, ⟨h.pid_eq, rfl⟩, h⟩
  | isAlive pid => exact ⟨v, ⟨congrFun (congrArg Surroundings.isAlive h.around_eq) pid, rfl⟩, h⟩
  | now => exact ⟨v, ⟨h.clock_eq, rfl⟩, h⟩
  | ticks => exact ⟨v, ⟨h.ticks_eq, rfl⟩, h⟩
  | wait nanos =>
    have hsleep : (Machine.serve (.wait nanos) m).2 = { m with
        clock := m.clock + ((m.ticks + nanos) / 1000000 - m.ticks / 1000000)
        ticks := m.ticks + nanos
        trace := { m.trace with sleeps := nanos :: m.trace.sleeps } } := by
      simp only [Machine.serve, Machine.sleep, h.script_eq, hquiet]
      rfl
    refine ⟨v.sleep start.host nanos, rfl, ?_⟩
    rw [hsleep]
    refine ⟨h.holds, ?_⟩
    change (({ m.around with
      clock := m.clock + ((m.ticks + nanos) / 1000000 - m.ticks / 1000000) } : Surroundings),
        m.ticks + nanos, m.names, m.pid, m.script) = _
    rw [h.around_eq, h.clock_eq, h.ticks_eq, h.names_eq, h.pid_eq, h.script_eq]
    rfl
  | freshName =>
    refine ⟨_, ⟨⟨?_, rfl⟩, congrArg nameOf h.names_eq, rfl⟩, h.holds, ?_⟩
    . exact fun p hp => hp.temporaryPath (nameOf_plain m.names)
    . change (m.around, m.ticks, m.names + 1, m.pid, m.script) = _
      rw [h.around_eq, h.ticks_eq, h.names_eq, h.pid_eq, h.script_eq]
  | link source target =>
    obtain ⟨files, hlinks, hmirrors⟩ := hsettles hadmits (by rintro ⟨⟩)
    exact ⟨_, ⟨files, hlinks, rfl⟩, hmirrors.holds, hmirrors.setting⟩
  | _ =>
    obtain ⟨files, hserves, hmirrors⟩ := hsettles hadmits (by rintro ⟨⟩)
    exact ⟨_, ⟨files, hserves, rfl⟩, hmirrors⟩

end Mirrors

/-- There can be a file at a path: a disk with the same directories has one there. -/
def HasRoom (m : Machine) (path : Path) : Prop :=
  ∃ d, m.disk.SameDirectories d ∧ d.file? path ≠ none

theorem Mirrors.roomy (h : start.Mirrors path v m) (hlock : path.Beside (Lease.lockPath path)) :
    Ledger.Roomy path (start.HasRoom (Lease.lockPath path)) v := by
  intro hfile
  rw [← h.holds.file?_eq _ hlock] at hfile
  exact ⟨m.disk, h.holds.sameDirectories, hfile⟩

/-- What is known of the program of a lease that nobody else disturbs, is known on a machine. -/
theorem ensures_of_vigil {ε α : Type} {p : Program World ε α} {Q : Except ε α → Vigil → Prop}
    (hlock : path.Beside (Lease.lockPath path)) (hquiet : m.script.onSleep = [])
    (h : Ensures ((Vigil.server m.host path.Beside True).within
      (Ledger.Roomy path (m.HasRoom (Lease.lockPath path)))) p m.vigil Q) :
    Ensures server p m fun outcome m' => ∃ v, m.Mirrors path v m' ∧ Q outcome v := by
  refine h.simulate (m.Mirrors path) (fun _ _ _ _ _ => trivial) ?_ (m.mirrors_vigil path)
  intro r v m' reply m'' hmirrors hadmits hserves
  have hserved := hmirrors.serve hquiet hadmits
  rw [show serve r m' = (reply, m'') from hserves] at hserved
  obtain ⟨v', hserves', hmirrors'⟩ := hserved
  exact ⟨v', ⟨hserves', hmirrors'.roomy hlock⟩, hmirrors'⟩

theorem run_onDisk_of_aftermath {α : Type} {options : Lease.Options}
    {operation : Program Ledger.Access Failure α} {outcome : Except Failure α} {lease : Lease}
    {taken : Bool} {m' : Machine}
    (h : m.run (Ledger.aftermath path options operation) = (.ok (outcome, lease, taken), m')) :
    m.run (Ledger.onDisk path options operation) = (outcome, m') := by
  rw [Ledger.onDisk_eq_aftermath]
  refine (Program.run_bind_of_ok h _).trans ?_
  cases outcome with
  | ok a => rfl
  | error e => rfl

end SchemaMigration.Machine

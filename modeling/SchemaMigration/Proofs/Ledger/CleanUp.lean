import SchemaMigration.Proofs.Lease.Tidiness
import SchemaMigration.Proofs.Ledger.Operations

/-!
This module contains how the operations on a ledger clean up. Each asks for the lease at most once,
uses the ledger file only while it has the lease, and gives it up on every way out. So where nobody
else acts, no lock of its own and no temporary file is left, whatever requests fail.
-/

namespace SchemaMigration.Ledger

open Program (Ensures)

inductive Phase where
  | before
  | holding
  | behind
  deriving DecidableEq

namespace Phase

/-- The requests that an operation may make in each phase: without the lease, only one for it. -/
def server : Server Access Phase where
  Admits
    | .acquire, phase => phase = .before
    | _, phase => phase = .holding
  Serves
    | .acquire, _, .ok _, phase => phase = .holding
    | .acquire, _, .error _, phase | .release, _, _, phase => phase = .behind
    | _, phase, _, phase' => phase' = phase

variable {α β : Type}

def Stays (p : Program Access Failure α) : Prop :=
  Ensures server p .holding fun _ phase => phase = .holding

def Leaves (p : Program Access Failure α) : Prop :=
  Ensures server p .before fun _ phase => phase ≠ .holding

theorem Stays.bind {p : Program Access Failure α} {f : α → Program Access Failure β}
    (hp : Stays p) (hf : ∀ a, Stays (f a)) : Stays (p >>= f) := by
  unfold Stays
  rw [Program.ensures_bind]
  apply Ensures.mono hp
  rintro outcome _ rfl
  cases outcome with
  | ok a => exact hf a
  | error e => rfl

theorem Stays.attempt {p : Program Access Failure α} (hp : Stays p) : Stays p.attempt := by
  unfold Stays
  rw [Program.ensures_attempt]
  exact hp

theorem stays_ofExcept (outcome : Except Failure α) : Stays (Program.ofExcept outcome) := by
  unfold Stays
  rw [Program.ensures_ofExcept]

theorem stays_read : Stays (ask .read) := ⟨rfl, fun _ _ h => h⟩

theorem stays_keep (state : State) : Stays (ask (.keep state)) := ⟨rfl, fun _ _ h => h⟩

theorem stays_replace (content : Text) : Stays (ask (.replace content)) := ⟨rfl, fun _ _ h => h⟩

theorem stays_now : Stays (ask .now) := ⟨rfl, fun _ _ h => h⟩

theorem stays_log (entry : Log.Entry) : Stays (HasLog.log entry) := ⟨rfl, fun _ _ h => h⟩

theorem stays_forM_log (entry : β → Log.Entry) (items : List β) :
    Stays (items.forM fun item => HasLog.log (entry item)) := by
  induction items with
  | nil => rfl
  | cons item items ih => exact (stays_log (entry item)).bind fun _ => ih

theorem stays_readState (path : Path) : Stays (readState path) := by
  unfold readState
  apply stays_read.bind
  intro reply
  cases reply with
  | error e => rfl
  | ok content? => exact stays_ofExcept _

theorem stays_writeState (s : State) : Stays (writeState s) :=
  (stays_ofExcept _).bind fun content => (stays_replace content).bind stays_ofExcept

theorem stays_take (l : Ledger) (state : State) : Stays (l.take state) :=
  (stays_keep state).bind fun _ => rfl

theorem Stays.underLease {p : Program Access Failure α} (hp : Stays p) :
    Leaves (underLease p) := by
  unfold Ledger.underLease
  refine ⟨rfl, ?_⟩
  intro reply phase hserves
  cases reply with
  | error e =>
    cases hserves
    exact nofun
  | ok _ =>
    cases hserves
    change Ensures server (p.andFinally (ask .release)) _ _
    rw [Program.ensures_andFinally]
    apply Ensures.mono hp
    rintro outcome _ rfl
    refine ⟨rfl, ?_⟩
    rintro _ _ rfl
    exact nofun

theorem Leaves.map {p : Program Access Failure α} (hp : Leaves p) (f : α → β) :
    Leaves (p >>= fun a => pure (f a)) := by
  unfold Leaves
  rw [Program.ensures_bind]
  apply Ensures.mono hp
  intro outcome phase h
  cases outcome with
  | ok a => exact h
  | error e => exact h

theorem load_leaves (l : Ledger) : Leaves l.load := by
  apply Stays.underLease
  apply (stays_readState l.path).bind
  intro state
  apply (stays_take l state).bind
  intro _
  exact (stays_log _).bind fun _ => rfl

theorem record_leaves (l : Ledger) (files : List MigrationFile) : Leaves (l.record files) := by
  unfold record
  split
  . exact nofun
  apply Stays.underLease
  apply (stays_readState l.path).bind
  intro old
  apply stays_now.bind
  intro now
  split
  . rfl
  apply (stays_writeState _).bind
  intro _
  apply (stays_take l _).bind
  intro _
  apply (stays_log _).bind
  intro _
  exact (stays_forM_log _ files).bind fun _ => rfl

theorem rollBack_leaves (l : Ledger) : Leaves l.rollBack := by
  apply Stays.underLease
  apply (stays_readState l.path).bind
  intro old
  dsimp only
  split
  . exact (stays_take l old).bind fun _ => rfl
  apply (stays_writeState _).bind
  intro _
  apply (stays_take l _).bind
  intro _
  apply (stays_log _).bind
  intro _
  exact (stays_forM_log _ _).bind fun _ => rfl

theorem remove_leaves (l : Ledger) (files : List Text) : Leaves (l.remove files) := by
  unfold remove
  split
  . exact nofun
  apply Stays.underLease
  apply (stays_readState l.path).bind
  intro old
  apply (stays_writeState _).bind
  intro _
  apply (stays_take l _).bind
  intro _
  apply (stays_log _).bind
  intro _
  exact (stays_forM_log _ _).bind fun _ => rfl

theorem stays_refresh (path : Path) : Stays (refresh path) := by
  unfold refresh
  apply (stays_readState path).bind
  intro state
  apply (stays_ofExcept _).bind
  intro expected
  apply (stays_writeState state).bind
  intro _
  apply stays_read.bind
  intro reply
  match reply with
  | .error e => rfl
  | .ok none => rfl
  | .ok (some content) =>
    dsimp only
    split
    . rfl
    . exact (stays_ofExcept _).bind fun _ => rfl

theorem probe_leaves (l : Ledger) : Leaves l.probe := by
  apply Stays.underLease
  apply (stays_refresh l.path).attempt.bind
  intro outcome
  cases outcome with
  | error e => rfl
  | ok _ => exact stays_log _

theorem program_leaves (o : Operation) (l : Ledger) : Leaves (o.program l) := by
  cases o with
  | load => exact load_leaves l
  | probe => exact (probe_leaves l).map _
  | mutate m =>
    cases m with
    | record files => exact record_leaves l files
    | rollBack => exact (rollBack_leaves l).map _
    | remove files => exact remove_leaves l files

end Phase

def serveNoting (path : Path) (r : Request) (c : Lease × Bool) :
    Program World Failure (Reply r × Lease × Bool) := do
  let (reply, lease) ← serve path r c.1
  return (reply, lease, c.2 || lease.isHeld)

/--
Runs a ledger operation on the file system, and gives beside its outcome its lease and whether that
was held at any time.
-/
def aftermath {α : Type} (path : Path) (options : Lease.Options)
    (operation : Program Access Failure α) :
    Program World Failure (Except Failure α × Lease × Bool) :=
  operation.serveInto (serveNoting path) (.new (Lease.lockPath path) options, false)

theorem onDisk_eq_aftermath {α : Type} (path : Path) (options : Lease.Options)
    (operation : Program Access Failure α) :
    onDisk path options operation =
      aftermath path options operation >>= fun result => Program.ofExcept result.1 := by
  refine Program.serveBy_eq_serveInto Prod.fst (fun r c => ?_) operation
    (Lease.new (Lease.lockPath path) options, false)
  unfold serveNoting
  rw [Program.bind_assoc]
  exact (Program.bind_pure _).symm

section Aftermath

open Lease (lockPath guardPath)

def Spares (path : Path) (files files' : Files) : Prop :=
  ∀ p, p ≠ path → p ≠ lockPath path → p ≠ guardPath (lockPath path) → files' p = files p

/--
What an operation has done in each phase to its lease and to the files of a vigil. It has been given
the lease only if there is `Room` for the lock.
-/
inductive Phase.Shows (path : Path) (options : Lease.Options) (Room : Prop) (start : Lease.Vigil) :
    Phase → Lease × Bool → Lease.Vigil → Prop
  | before : Shows path options Room start .before (.new (lockPath path) options, false) start
  | holding {token : Text} {v : Lease.Vigil} (hroom : Room)
    (hlock : ∃ content, v.scene.files (lockPath path) = some content ∧
      (Lease.Record.decode content).token = token)
    (hspares : Spares path start.scene.files v.scene.files) :
    Shows path options Room start .holding (⟨lockPath path, options, some token⟩, true) v
  | released {v : Lease.Vigil} (hroom : Room) (hlock : v.scene.files (lockPath path) = none)
    (hspares : Spares path start.scene.files v.scene.files) :
    Shows path options Room start .behind (.new (lockPath path) options, true) v
  | refused {v : Lease.Vigil}
    (hlock : v.scene.files (lockPath path) = start.scene.files (lockPath path) ∨
      start.scene.Expires (lockPath path) options v.scene.around.clock ∧
        v.scene.files (lockPath path) = none)
    (hspares : Spares path start.scene.files v.scene.files) :
    Shows path options Room start .behind (.new (lockPath path) options, false) v

variable {host : Lease.Vigil.Host} {mine : Path → Prop} {mayFail Room : Prop} {path : Path}
  {options : Lease.Options} {start v : Lease.Vigil} {phase : Phase} {c : Lease × Bool}

structure Tidy (path : Path) (options : Lease.Options) (Room : Prop) (start : Lease.Vigil)
    (lease : Lease) (taken : Bool) (v : Lease.Vigil) : Prop where
  not_held : lease.isHeld = false
  lock_taken : taken = true → Room ∧ v.scene.files (lockPath path) = none
  lock_untaken : taken = false →
    v.scene.files (lockPath path) = start.scene.files (lockPath path) ∨
      start.scene.Expires (lockPath path) options v.scene.around.clock ∧
        v.scene.files (lockPath path) = none
  spares : Spares path start.scene.files v.scene.files

theorem Phase.Shows.tidy {lease : Lease} {taken : Bool}
    (h : Shows path options Room start phase (lease, taken) v) (hphase : phase ≠ .holding) :
    Tidy path options Room start lease taken v := by
  cases h with
  | before => exact ⟨rfl, nofun, fun _ => .inl rfl, fun _ _ _ _ => rfl⟩
  | holding => exact absurd rfl hphase
  | released hroom hlock hspares => exact ⟨rfl, fun _ => ⟨hroom, hlock⟩, nofun, hspares⟩
  | refused hlock hspares => exact ⟨rfl, nofun, fun _ => hlock, hspares⟩

def Roomy (path : Path) (Room : Prop) (v : Lease.Vigil) : Prop :=
  v.scene.files (lockPath path) ≠ none → Room

/-- The outcome of a request that has been served, where the operation is in a new phase. -/
def Phase.Follows (path : Path) (options : Lease.Options) (Room : Prop) (start : Lease.Vigil)
    (r : Request) (phase : Phase) (outcome : Except Failure (Reply r × Lease × Bool))
    (v : Lease.Vigil) : Prop :=
  ∃ reply c phase', outcome = .ok (reply, c) ∧ server.Serves r phase reply phase' ∧
    Shows path options Room start phase' c v ∧ Roomy path Room v

theorem spares_of_lease {files files' : Files}
    (h : ∀ p, p ≠ lockPath path → p ≠ guardPath (lockPath path) → files' p = files p) :
    Spares path files files' :=
  fun p _ hp hguard => h p hp hguard

/-- A request under the lease that leaves it alone and changes at most the ledger file. -/
theorem Phase.Shows.holding_follows {r : Request} {p : Program World Failure (Reply r)}
    (hshows : Phase.Shows path options Room start .holding c v) (hroomy : Roomy path Room v)
    (hr : ∀ reply, Phase.server.Serves r .holding reply .holding)
    (hserve : serve path r c.1 = p >>= fun reply => pure (reply, c.1))
    (hp : Ensures (World.alone mine mayFail) p v.scene.files fun outcome files' =>
      (∃ reply, outcome = .ok reply) ∧ ∀ q, q ≠ path → files' q = v.scene.files q) :
    Ensures ((Lease.Vigil.server host mine mayFail).within (Roomy path Room))
      (serveNoting path r c) v
        (Phase.Follows path options Room start r .holding) := by
  obtain _ | ⟨hroom, ⟨content, hcontent, htoken⟩, hspares⟩ := hshows
  unfold serveNoting
  rw [hserve, Program.bind_assoc, Program.ensures_bind]
  apply ((Lease.Vigil.ensures_of_alone hp).within hroomy).mono
  rintro _ v' ⟨⟨⟨reply, rfl⟩, hsame⟩, hroomy⟩
  refine ⟨reply, _, .holding, rfl, hr reply, ?_, hroomy⟩
  have hne : lockPath path ≠ path := (apart_lockPath path).ne_lock.symm
  refine .holding hroom ⟨content, (hsame _ hne).trans hcontent, htoken⟩ ?_
  intro q hq hlock hguard
  rw [hsame q hq]
  exact hspares q hq hlock hguard

structure Undisturbed (host : Lease.Vigil.Host) (mine : Path → Prop) (path : Path)
    (start : Lease.Vigil) : Prop where
  quiet : ∀ n s, host.others n s = s
  ledger : mine path
  lock : mine (lockPath path)
  guard : mine (guardPath (lockPath path))
  ready : host.Ready (lockPath path) (host.name start.names) start.scene

namespace Undisturbed

variable (h : Undisturbed host mine path start)

include h

theorem acquire_follows (hroomy : Roomy path Room start) :
    Ensures ((Lease.Vigil.server host mine mayFail).within (Roomy path Room))
      (serveNoting path .acquire (.new (lockPath path) options, false)) start
        (Phase.Follows path options Room start .acquire .before) := by
  unfold serveNoting serve
  rw [Program.ensures_bind, Program.ensures_bind, Program.ensures_attempt]
  apply ((Lease.acquire_tidy rfl h.quiet h.lock h.guard h.ready).within hroomy).mono
  rintro _ v' ⟨⟨token, rfl, htaken⟩ | ⟨e, rfl, huntaken⟩, hroomy⟩
  . refine ⟨.ok (), _, .holding, rfl, rfl, ?_, hroomy⟩
    obtain ⟨content, hcontent, htoken⟩ := htaken.lock
    apply Phase.Shows.holding (hroomy _) ⟨content, hcontent, htoken⟩
    . exact spares_of_lease htaken.elsewhere
    . exact ne_of_eq_of_ne hcontent nofun
  . refine ⟨.error e, _, .behind, rfl, rfl, ?_, hroomy⟩
    exact .refused huntaken.lock (spares_of_lease huntaken.elsewhere)

theorem release_follows (hshows : Phase.Shows path options Room start .holding c v)
    (hroomy : Roomy path Room v) :
    Ensures ((Lease.Vigil.server host mine mayFail).within (Roomy path Room))
      (serveNoting path .release c) v
        (Phase.Follows path options Room start .release .holding) := by
  obtain _ | ⟨hroom, ⟨content, hcontent, htoken⟩, hspares⟩ := hshows
  unfold serveNoting serve
  rw [Program.ensures_bind, Program.ensures_bind]
  apply ((Lease.release_tidy h.lock rfl hcontent htoken).within hroomy).mono
  rintro _ v' ⟨⟨rfl, hnone, hsame⟩, hroomy⟩
  refine ⟨(), _, .behind, rfl, rfl, .released hroom hnone ?_, hroomy⟩
  intro p hp hlock hguard
  rw [hsame p hlock]
  exact hspares p hp hlock hguard

theorem serve_follows (r : Request) (hshows : Phase.Shows path options Room start phase c v)
    (hroomy : Roomy path Room v) (hadmits : Phase.server.Admits r phase) :
    Ensures ((Lease.Vigil.server host mine mayFail).within (Roomy path Room))
      (serveNoting path r c) v (Phase.Follows path options Room start r phase) := by
  cases r with
  | acquire =>
    cases hadmits
    cases hshows
    exact h.acquire_follows hroomy
  | release =>
    cases hadmits
    exact h.release_follows hshows hroomy
  | read =>
    cases hadmits
    refine hshows.holding_follows hroomy (fun _ => rfl) rfl ?_
    rw [Program.ensures_attempt]
    apply (File.readIfExists_alone h.ledger _).mono
    rintro outcome _ rfl
    exact ⟨⟨outcome, rfl⟩, fun _ _ => rfl⟩
  | replace content =>
    cases hadmits
    refine hshows.holding_follows hroomy (fun reply => ?_) rfl ?_
    . cases reply <;> rfl
    rw [Program.ensures_attempt]
    apply (File.writeAtomic_alone h.ledger content _).of_guarded.mono
    intro outcome files' hrenewed
    exact ⟨⟨outcome, rfl⟩, fun q hq => hrenewed.of_ne hq⟩
  | keep state =>
    cases hadmits
    exact hshows.holding_follows hroomy (p := pure ()) (fun _ => rfl) rfl
      ⟨⟨(), rfl⟩, fun _ _ => rfl⟩
  | now =>
    cases hadmits
    refine hshows.holding_follows hroomy (fun _ => rfl) rfl ⟨trivial, ?_⟩
    rintro now _ rfl
    exact ⟨⟨now, rfl⟩, fun _ _ => rfl⟩
  | log entry =>
    cases hadmits
    refine hshows.holding_follows hroomy (fun _ => rfl) rfl ⟨trivial, ?_⟩
    rintro _ _ rfl
    exact ⟨⟨(), rfl⟩, fun _ _ => rfl⟩

/-- An operation leaves a ledger tidy, whatever its outcome. -/
theorem aftermath_tidy (options : Lease.Options) (l : Ledger) (o : Operation)
    (hroomy : Roomy path Room start) :
    Ensures ((Lease.Vigil.server host mine mayFail).within (Roomy path Room))
      (aftermath path options (o.program l)) start fun outcome v' =>
        ∃ result lease taken, outcome = .ok (result, lease, taken) ∧
          Tidy path options Room start lease taken v' := by
  refine (Ensures.serveInto
    (fun phase c v => Phase.Shows path options Room start phase c v ∧ Roomy path Room v)
    (fun r phase c v hR hadmits => h.serve_follows r hR.1 hR.2 hadmits)
    (Phase.program_leaves o l) ⟨.before, hroomy⟩).mono ?_
  rintro _ v' ⟨result, ⟨lease, taken⟩, phase, rfl, ⟨hshows, _⟩, hleft⟩
  exact ⟨result, lease, taken, rfl, hshows.tidy hleft⟩

end Undisturbed

end Aftermath

end SchemaMigration.Ledger

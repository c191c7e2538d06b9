import SchemaMigration.Proofs.Run.Agreement
import SchemaMigration.Proofs.Run.Minutes

/-!
This module contains that an upward run records exactly the migrations that it has committed. These
are the first ones of those that were pending, up to the first that cannot be read or is refused by
the database. The calls to the database are given in full.
-/

namespace SchemaMigration.Run

open Program (Ensures Exec)

structure Stage where
  files : Files
  calls : List Call

namespace Stage

/--
The world of a run that has the ledger for itself. The migrations directory stays as it is, and
others may change all other files.
-/
def server (options : Options) (d : Migration.Directory) : Server World Stage where
  Admits _ _ := True
  Serves r s reply s' :=
    (World.server (File.Owns options.ledger)).Serves r s.files reply s'.files ∧
      d.Shows options.migrations r reply ∧ s'.calls = s.calls ++ Call.ofReply r reply

variable {α : Type} {options : Options} {d : Migration.Directory} {p : Program World Failure α}
  {outcome : Except Failure α} {s s' : Stage}

theorem exec_files (h : Exec (server options d) p s outcome s') :
    Exec (World.server (File.Owns options.ledger)) p s.files outcome s'.files := by
  apply h.map Stage.files
  intro r t reply t' hserves
  exact hserves.1

theorem exec_shows (h : Exec (server options d) p s outcome s') :
    Exec (d.server options.migrations) p () outcome () := by
  apply h.map fun _ => ()
  intro r t reply t' hserves
  exact hserves.2.1

theorem exec_calls (h : Exec (server options d) p s outcome s') :
    Exec Call.server p s.calls outcome s'.calls := by
  apply h.map Stage.calls
  intro r t reply t' hserves
  exact hserves.2.2

theorem exec_record {migrations : List MigrationFile} {new : Ledger.State}
    (h : Exec (server options d) (serve options World.pause (.record migrations)) s (.ok (.ok new))
      s') :
    ∃ old, Ledger.decodeFile options.ledger (s.files options.ledger) = .ok old ∧
      Ledger.Mutation.Writes (.record migrations) old new ∧
      s'.files options.ledger = some new.encode := by
  obtain ⟨outcome, houtcome, session, hsees, hends⟩ :=
    exec_onLedger_state (·.record migrations) (exec_files h)
      (Ledger.ensures_of_session (Ledger.Session.record_ensures (.new options.ledger) migrations) _)
  cases outcome with
  | error e => cases houtcome
  | ok l =>
    cases houtcome
    cases hends with
    | skipped ho => cases ho
    | probed ho => cases ho
    | read hreads => cases hreads
    | wrote ho hdecode hwrites =>
      cases ho
      obtain ⟨hstart, hcontent⟩ := hsees
      rw [← hstart]
      exact ⟨_, hdecode, hwrites, hcontent⟩

theorem serve_says {r : Request} {reply : Reply r}
    (h : Exec (server options d) (serve options World.pause r) s (.ok reply) s') :
    Minutes.Says options d r reply (s.files options.ledger) (s'.files options.ledger) := by
  cases r with
  | listFiles =>
    have hensures : Ensures (d.server options.migrations) (serve options World.pause .listFiles) ()
        fun outcome _ => outcome = .ok (.ok d.names) := by
      unfold serve
      rw [Program.ensures_attempt]
      apply (d.listFiles_ensures options.migrations).mono
      rintro _ _ rfl
      rfl
    cases hensures.of_exec (exec_shows h)
    rfl
  | loadFiles =>
    have hensures : Ensures (d.server options.migrations) (serve options World.pause .loadFiles) ()
        fun outcome _ => ∀ reply, outcome = .ok reply →
          Decides (d.Fits options.limits) d.files reply := by
      unfold serve
      rw [Program.ensures_attempt]
      apply (d.loadFiles_decides options.limits options.migrations).mono
      rintro outcome _ hdecides _ ⟨⟩
      exact hdecides
    exact hensures.of_exec (exec_shows h) reply rfl
  | record migrations =>
    cases reply with
    | error e => trivial
    | ok new => exact exec_record h
  | _ => trivial

end Stage

structure Sitting extends Stage where
  events : List Event

namespace Sitting

def server (options : Options) (d : Migration.Directory) : Server Access Sitting where
  Admits _ _ := True
  Serves r s reply s' :=
    Exec (Stage.server options d) (serve options World.pause r) s.toStage (.ok reply) s'.toStage ∧
      s'.events = s.events ++ Event.ofReply r reply

def minutes (ledger : Path) (s : Sitting) : Minutes := ⟨s.files ledger, s.calls, s.events⟩

variable {α : Type} {options : Options} {d : Migration.Directory} {dialect : Sql.Dialect}
  {state : Ledger.State} {s s' : Sitting} {p : Program Access Failure α}
  {outcome : Except Failure α}

theorem exec_minutes (h : Exec (server options d) p s outcome s') :
    Exec (Minutes.server options d) p (s.minutes options.ledger) outcome
      (s'.minutes options.ledger) := by
  apply h.map (minutes options.ledger)
  rintro r t reply t' ⟨hexec, hevents⟩
  exact ⟨serve_rewrites (Stage.exec_files hexec), Stage.serve_says hexec,
    serve_costs (Stage.exec_calls hexec), hevents⟩

theorem exec_of_perform {t t' : Stage}
    (hexec : Exec (Stage.server options d) (perform options World.pause p) t outcome t')
    (events : List Event) :
    ∃ events', Exec (server options d) p ⟨t, events⟩ outcome ⟨t', events'⟩ := by
  refine exists_exec_of_perform Sitting.mk (fun r t reply t' events hserve => ?_) hexec events
  exact ⟨events ++ Event.ofReply r reply, hserve, rfl⟩

/--
An upward run on a ledger with a number left for one more batch. If the directory is not as the
ledger says, or too large, or if the ledger cannot be read or written, or nothing is pending, it
makes no call to the database. Otherwise it connects, commits the first ones of the pending
migrations, up to one that fails, and disconnects. What it has committed becomes the next batch, or
else the outcome names it. Unless recording fails, the outcome is the failure that stopped the run,
if there is one, and what was left undone is what is pending behind it.
-/
theorem up_records_committed {files : Files} {outcome : Except Failure Applied}
    (hdecode : Ledger.decodeFile options.ledger (files options.ledger) = .ok state)
    (hbelow : state.currentBatch < Ledger.State.maxBatch)
    (hexec : Exec (server options d) (up dialect options.ledger) ⟨⟨files, []⟩, []⟩ outcome s) :
    ((d.pending state).map (·.name)).Pairwise (· < ·) ∧
    (∀ name, name ∈ (d.pending state).map (·.name) ↔ name ∈ d.names ∧ name ∉ state.files) ∧
    (Hindered options d state s.events →
      s.calls = [] ∧ Ledger.decodeFile options.ledger (s.files options.ledger) = .ok state) ∧
    (¬ Hindered options d state s.events →
      ∃ (done rest : List MigrationFile) (calls : List Call) (stopped? : Option Failure)
        (answer : Except Text Unit) (behind : Ledger.State),
        d.pending state = done ++ rest ∧
        Works options.connection dialect (d.pending state) done calls stopped? ∧
        s.calls = calls ++ [.disconnect answer] ∧
        Ledger.decodeFile options.ledger (s.files options.ledger) = .ok behind ∧
        Closes options.ledger state (d.names.filter state.isApplied) done stopped? s.events outcome
          behind ∧
        ∀ (report : Status) (s' : Sitting), Exec (server options d) status s (.ok report) s' →
          report.applied = behind.entries ∧ report.currentBatch = behind.currentBatch ∧
            (¬ EndsInconsistent outcome → report.pending = rest.map (·.name))) := by
  have hconcludes := (Minutes.up_concludes dialect d hdecode hbelow).of_exec (exec_minutes hexec)
  refine ⟨?_, ?_, ?_, ?_⟩
  . rw [d.names_pending]
    exact state.pending_sorted _
  . intro name
    rw [d.names_pending]
    exact Ledger.State.mem_pending
  . intro hhindered
    cases hconcludes with
    | idle _ hcalls hdecode' => exact ⟨hcalls, hdecode'⟩
    | busy hfree => exact absurd hhindered hfree
  . intro hfree
    cases hconcludes with
    | idle hhindered => exact absurd hhindered hfree
    | @busy done calls stopped? answer behind _ hworks hcalls hdecode' hcloses =>
      obtain ⟨rest, hrest⟩ := hworks.begins
      refine ⟨done, rest, calls, stopped?, answer, behind, hrest.symm, hworks, hcalls, hdecode',
        hcloses, ?_⟩
      intro report s' hstatus
      cases (Minutes.status_reports hdecode').of_exec (exec_minutes hstatus) report rfl
      refine ⟨rfl, rfl, fun hconsistent => ?_⟩
      exact hcloses.pending_eq hconsistent (Ledger.valid_of_decodeFile hdecode) hbelow hrest.symm

end Sitting

namespace Stage

/--
A world in which the directory is as it is said to be, only the second attempt to connect succeeds,
and the transaction of some statements is refused.
-/
def scripted (d : Migration.Directory) (path : Path) (refused : List Text) :
    (r : World.Request) → Stage → World.Reply r × Files
  | .list _, s => (.ok d.listing, s.files)
  | .size p, s =>
    match d.names.find? (path.join · == p) with
    | some name => (.ok (d.size name), s.files)
    | none => (.error .noEntry, s.files)
  | .read p, s =>
    match d.names.find? (path.join · == p) with
    | some name => (.ok (some (d.content name)), s.files.set p (some (d.content name)))
    | none => (.ok (s.files p), s.files)
  | .connect, s => (if s.calls.isEmpty then .error (ascii "timeout") else .ok (), s.files)
  | .transaction statements, s =>
    (if statements = refused then .error (ascii "refused") else .ok (), s.files)
  | r, s => World.obliging [] r s.files

def play (d : Migration.Directory) (path : Path) (refused : List Text) (r : World.Request)
    (s : Stage) : World.Reply r × Stage :=
  let (reply, files) := scripted d path refused r s
  (reply, ⟨files, s.calls ++ Call.ofReply r reply⟩)

theorem scripted_shows (d : Migration.Directory) (path : Path) (refused : List Text)
    (r : World.Request) (s : Stage) : d.Shows path r (scripted d path refused r s).1 := by
  have hfind : ∀ name ∈ d.names, d.names.find? (path.join · == path.join name) = some name := by
    intro name hname
    cases hfind : d.names.find? (path.join · == path.join name) with
    | none => exact absurd (beq_self_eq_true _) (List.find?_eq_none.mp hfind name hname)
    | some found =>
      have hfound := List.find?_some hfind
      rw [path.join_injective (beq_iff_eq.mp hfound)]
  cases r with
  | isDirectory p => exact fun _ => rfl
  | list p => exact fun _ => rfl
  | size p =>
    rintro name hname rfl
    simp only [scripted, hfind name hname]
  | read p =>
    rintro name hname rfl
    simp only [scripted, hfind name hname]
  | _ => trivial

variable {options : Options} {d : Migration.Directory}

theorem scripted_serves
    (hapart : ∀ name ∈ d.names, ¬ File.Owns options.ledger (options.migrations.join name))
    (refused : List Text) (r : World.Request) (s : Stage) :
    (World.server (File.Owns options.ledger)).Serves r s.files
      (scripted d options.migrations refused r s).1
      (scripted d options.migrations refused r s).2 := by
  cases r with
  | list | connect | transaction => exact ⟨s.files, fun _ _ => rfl, rfl⟩
  | size p =>
    refine ⟨s.files, fun _ _ => rfl, ?_⟩
    simp only [scripted]
    split
    . rfl
    . rfl
  | read p =>
    simp only [scripted]
    split
    . next name hfind =>
      have hp := List.find?_some hfind
      rw [beq_iff_eq] at hp
      subst hp
      refine ⟨_, fun q hq => ?_, ?_, rfl⟩
      . apply Files.set_of_ne
        rintro rfl
        exact hapart name (List.mem_of_find?_eq_some hfind) hq
      . rintro _ ⟨⟩
        exact (Files.set_same _ _ _).symm
    . refine ⟨s.files, fun _ _ => rfl, ?_, rfl⟩
      rintro _ ⟨⟩
      rfl
  | _ => exact World.obliging_serves [] _ s.files

theorem exec_play {α : Type} {p : Program World Failure α} {refused : List Text} {s : Stage}
    {result : Except Failure α × Stage}
    (hplay : p.run (play d options.migrations refused) s = result)
    (hapart : ∀ name ∈ d.names, ¬ File.Owns options.ledger (options.migrations.join name)) :
    Exec (server options d) p s result.1 result.2 := by
  subst hplay
  refine Exec.run (fun r s => ?_) p s
  exact ⟨scripted_serves hapart refused r s, scripted_shows d options.migrations refused r s, rfl⟩

end Stage

/--
The first attempt to connect fails in a way that passes, the first of two migrations is committed,
and the second one is refused.
-/
theorem Sitting.up_records_committed_first_of_two :
    let options : Options :=
      ⟨ascii "m", ascii "ledger.json", ⟨true, 30, 60⟩, ⟨0, 0⟩, ⟨2, 0⟩⟩
    let one : MigrationFile := ⟨ascii "1.sigl", ascii "model A \x7b id Int\n\x7d"⟩
    let two : MigrationFile := ⟨ascii "2.sigl", ascii "model B \x7b id Int\n\x7d"⟩
    let createA := ascii "CREATE TABLE \"A\" (\n  \"id\" INTEGER\n);"
    let createB := ascii "CREATE TABLE \"B\" (\n  \"id\" INTEGER\n);"
    let d : Migration.Directory :=
      ⟨⟨[(two.name, true), (ascii "notes.txt", true), (one.name, true)], by decide⟩,
        fun name => if name = one.name then one.content else two.content⟩
    ∃ (outcome : Except Failure Applied) (s : Sitting) (appliedAt : Text),
      Exec (server options d) (up .sqlite options.ledger) ⟨⟨fun _ => none, []⟩, []⟩ outcome s ∧
      s.calls = [.connect (.error (ascii "timeout")), .connect (.ok ()),
        .transaction [createA] (.ok ()), .transaction [createB] (.error (ascii "refused")),
        .disconnect (.ok ())] ∧
      Ledger.decodeFile options.ledger (s.files options.ledger) =
        .ok ⟨[⟨one.name, one.hash, appliedAt, 1⟩], 1⟩ ∧
      outcome.mapError (·.kind) = .error .database := by
  intro options one two createA createB d
  obtain ⟨⟨outcome, stage⟩, hplay, hkind, hcalls, hfiles⟩ :
      ∃ result, (perform options World.pause (up .sqlite options.ledger)).run
          (Stage.play d options.migrations [createB]) ⟨fun _ => none, []⟩ = result ∧
        result.1.mapError (·.kind) = .error .database ∧
        result.2.calls = [.connect (.error (ascii "timeout")), .connect (.ok ()),
          .transaction [createA] (.ok ()), .transaction [createB] (.error (ascii "refused")),
          .disconnect (.ok ())] ∧
        (Ledger.entries (result.2.files options.ledger)).map (·.file) = [one.name] :=
    ⟨_, rfl, by decide +kernel⟩
  have hapart : ∀ name ∈ d.names, ¬ File.Owns options.ledger (options.migrations.join name) := by
    rintro name _ (hledger | ⟨_, htemporary⟩)
    . cases hledger
    . cases htemporary
  obtain ⟨events, hexec⟩ := exec_of_perform (Stage.exec_play hplay hapart) []
  obtain ⟨_, _, hidle, hbusy⟩ := up_records_committed rfl (by decide) hexec
  have hfree : ¬ Hindered options d .empty events := by
    intro hhindered
    have hnone := (hidle hhindered).1
    rw [hcalls] at hnone
    cases hnone
  obtain ⟨done, rest, _, stopped?, _, behind, hpending, _, _, hdecode, hcloses, _⟩ := hbusy hfree
  rw [Ledger.entries_of_decodeFile hdecode] at hfiles
  cases hcloses with
  | nothing => cases hfiles
  | inconsistent => cases hkind
  | recorded hdone appliedAt =>
    have hboth : d.pending .empty = [one, two] := by decide +kernel
    have hnames : done.map (·.name) = [one.name] := by
      rw [← hfiles]
      simp [Ledger.State.withNextBatch, Ledger.State.empty]
    obtain ⟨file, rfl, _⟩ := List.map_eq_singleton_iff.mp hnames
    rw [hboth] at hpending
    cases hpending
    exact ⟨_, _, appliedAt, hexec, hcalls, hdecode, hkind⟩

end SchemaMigration.Run

import SchemaMigration.Proofs.Basic
import SchemaMigration.Proofs.Log
import SchemaMigration.Proofs.Program
import SchemaMigration.Run.Run

/-!
This module contains the walk through a run: its stations, and the steps from one station to the
next, as the replies to its requests decide. Whatever serves the requests of a run, what all steps
keep is known at its end.
-/

namespace SchemaMigration

def Direction.action : Direction → Text
  | apply => ascii "migration.apply"
  | rollBack => ascii "migration.rollback"

namespace Run

open Program (Ensures)

def agenda (read : List MigrationFile) :
    Direction → Ledger.State → Except Failure (List MigrationFile)
  | .apply, state => (state.pending (read.map (·.name))).mapM (require read .apply)
  | .rollBack, state => state.lastBatch.mapM (requireUnmodified read)

def prepare (read : List MigrationFile) :
    Direction → Ledger.State → Except Failure (List MigrationFile)
  | .apply, state => do
    state.validate read
    agenda read .apply state
  | .rollBack, state => agenda read .rollBack state

theorem agenda_of_prepare {read files : List MigrationFile} {direction : Direction}
    {state : Ledger.State} (h : prepare read direction state = .ok files) :
    agenda read direction state = .ok files := by
  cases direction with
  | apply =>
    obtain ⟨_, _, hagenda⟩ := bind_eq_ok.mp h
    exact hagenda
  | rollBack => exact h

/-- What a run has read, and the files that it is going to treat. -/
structure Plan (direction : Direction) where
  state : Ledger.State
  read : List MigrationFile
  files : List MigrationFile
  prepared : prepare read direction state = .ok files
  nonempty : files ≠ []

/-- What a run has read decides its plan. -/
theorem Plan.eq_of_read {direction : Direction} {plan plan' : Plan direction}
    (hstate : plan.state = plan'.state) (hread : plan.read = plan'.read) : plan = plan' := by
  obtain ⟨state, read, files, hprepared, _⟩ := plan
  obtain ⟨state', read', files', hprepared', _⟩ := plan'
  cases hstate
  cases hread
  cases hprepared.symm.trans hprepared'
  rfl

/-- Files are treated from the first on; without a failure, all of them are. -/
structure Reaches (files : List MigrationFile) (progress : Progress) (rest : List MigrationFile) :
    Prop where
  files_eq : files = progress.committed ++ rest
  stopped : progress.stopped = none ↔ rest = []

theorem Reaches.failed {files done rest : List MigrationFile} (h : files = done ++ rest)
    (hne : rest ≠ []) (e : Failure) : Reaches files ⟨done, some e⟩ rest where
  files_eq := h
  stopped := ⟨nofun, fun hrest => absurd hrest hne⟩

theorem Reaches.finished {files done : List MigrationFile} (h : files = done ++ []) :
    Reaches files ⟨done, none⟩ [] where
  files_eq := h
  stopped := ⟨fun _ => rfl, fun _ => rfl⟩

theorem Reaches.isOk_iff {α : Type} {files rest : List MigrationFile} {progress : Progress}
    (h : Reaches files progress rest) (a : α) :
    (progress.stopped.elim (.ok a) .error : Except Failure α).isOk = true ↔ rest = [] := by
  rw [← h.stopped]
  cases progress.stopped with
  | none => exact ⟨fun _ => rfl, fun _ => rfl⟩
  | some e => exact ⟨nofun, nofun⟩

inductive Phase (files : List MigrationFile) where
  /-- The ledger can be written. -/
  | ready
  /-- Connected, with the first files committed. -/
  | treating {done rest : List MigrationFile} (h : files = done ++ rest)
  /-- The transaction of one more file was committed, which has not been told. -/
  | committed {done rest : List MigrationFile} {file : MigrationFile}
    (h : files = done ++ file :: rest) (statements : List Text)
  | failed {progress : Progress} {rest : List MigrationFile} (h : Reaches files progress rest)
  | left {progress : Progress} {rest : List MigrationFile} (h : Reaches files progress rest)
  /-- The ledger was to be told of what was committed. -/
  | updated {progress : Progress} {rest : List MigrationFile} (h : Reaches files progress rest)
    (hne : progress.committed ≠ []) (reply : Except Failure Ledger.State)

def Phase.done {files : List MigrationFile} : Phase files → List MigrationFile
  | ready => []
  | @treating _ done _ _ => done
  | @committed _ done _ file _ _ => done ++ [file]
  | @failed _ progress _ _ | @left _ progress _ _ | @updated _ progress _ _ _ _ =>
    progress.committed

/-- The first files are committed first. -/
theorem Phase.exists_eq_append {files : List MigrationFile} (phase : Phase files) :
    ∃ rest, files = phase.done ++ rest := by
  cases phase with
  | ready => exact ⟨files, rfl⟩
  | treating h => exact ⟨_, h⟩
  | committed h => exact ⟨_, h.trans (List.append_cons _ _ _)⟩
  | failed h | left h | updated h => exact ⟨_, h.files_eq⟩

def Phase.reply? {files : List MigrationFile} : Phase files → Option (Except Failure Ledger.State)
  | updated _ _ reply => some reply
  | _ => none

inductive Station (direction : Direction) where
  | start
  | loaded (state : Ledger.State)
  | opened (state : Ledger.State) (read : List MigrationFile)
  /-- Something failed, behind what was read. -/
  | halted (entries : List Ledger.Entry) (read : List MigrationFile) (e : Failure)
  | busy (plan : Plan direction) (phase : Phase plan.files)

def auditFields (dialect : Sql.Dialect) {direction : Direction} (plan : Plan direction)
    (file : MigrationFile) (statements : List Text) : List Log.Field :=
  [.text "file" file.name, .text "dialect" dialect.name,
    match direction with
    | .apply => .int "statements" statements.length
    | .rollBack => .int "batch" plan.state.currentBatch]

/-- The phases in which a run gives up its connection, and how far it has come there. -/
inductive Leaves (dialect : Sql.Dialect) (direction : Direction) {files : List MigrationFile} :
    {progress : Progress} → {rest : List MigrationFile} → Reaches files progress rest →
      Phase files → Prop
  | failed {progress : Progress} {rest : List MigrationFile} (h : Reaches files progress rest) :
    Leaves dialect direction h (.failed h)
  | unreadable {done rest : List MigrationFile} {file : MigrationFile}
    (h : files = done ++ file :: rest) {e : Failure}
    (hsql : statements dialect direction file = .error e) :
    Leaves dialect direction (.failed h (List.cons_ne_nil file rest) e) (.treating h)
  | finished {done : List MigrationFile} (h : files = done ++ []) :
    Leaves dialect direction (.finished h) (.treating h)

theorem Leaves.reply?_eq {dialect : Sql.Dialect} {direction : Direction}
    {files rest : List MigrationFile} {progress : Progress} {h : Reaches files progress rest}
    {phase : Phase files} (hleaves : Leaves dialect direction h phase) : phase.reply? = none := by
  cases hleaves with
  | failed | unreadable | finished => rfl

inductive Station.Step (dialect : Sql.Dialect) :
    {direction : Direction} → Station direction → (r : Request) → Reply r → Station direction → Prop
  | message {direction : Direction} {station : Station direction} {level : Log.Level} {text : Text}
    {fields : List Log.Field} (haside : Log.Apart Log.auditMark text) :
    Step dialect station (.log (.message level text fields)) () station
  | load {direction : Direction} {state : Ledger.State} :
    Step dialect (.start : Station direction) .load (.ok state) (.loaded state)
  | loadFailed {direction : Direction} {e : Failure} :
    Step dialect (.start : Station direction) .load (.error e) (.halted [] [] e)
  | loadFiles {direction : Direction} {state : Ledger.State} {read : List MigrationFile} :
    Step dialect (.loaded state : Station direction) .loadFiles (.ok read) (.opened state read)
  | loadFilesFailed {direction : Direction} {state : Ledger.State} {e : Failure} :
    Step dialect (.loaded state : Station direction) .loadFiles (.error e)
      (.halted state.entries [] e)
  | probe {direction : Direction} (plan : Plan direction) :
    Step dialect (.opened plan.state plan.read) .probe (.ok ()) (.busy plan .ready)
  | probeFailed {direction : Direction} (plan : Plan direction) {e : Failure} :
    Step dialect (.opened plan.state plan.read) .probe (.error e)
      (.halted plan.state.entries plan.read e)
  | connect {direction : Direction} {plan : Plan direction} :
    Step dialect (.busy plan .ready) .connect (.ok ())
      (.busy plan (.treating (List.nil_append _).symm))
  | connectFailed {direction : Direction} {plan : Plan direction} {e : Failure} :
    Step dialect (.busy plan .ready) .connect (.error e)
      (.busy plan (.failed (.failed (List.nil_append _).symm plan.nonempty e)))
  | transaction {direction : Direction} {plan : Plan direction} {done rest : List MigrationFile}
    {file : MigrationFile} {h : plan.files = done ++ file :: rest} {sql : List Text}
    (hsql : statements dialect direction file = .ok sql) :
    Step dialect (.busy plan (.treating h)) (.transaction direction file.name sql) (.ok ())
      (.busy plan (.committed h sql))
  | transactionFailed {direction : Direction} {plan : Plan direction}
    {done rest : List MigrationFile} {file : MigrationFile}
    {h : plan.files = done ++ file :: rest} {sql : List Text}
    (hsql : statements dialect direction file = .ok sql) {e : Failure} :
    Step dialect (.busy plan (.treating h)) (.transaction direction file.name sql) (.error e)
      (.busy plan (.failed (.failed h (List.cons_ne_nil file rest) e)))
  | tell {direction : Direction} {plan : Plan direction} {done rest : List MigrationFile}
    {file : MigrationFile} {h : plan.files = done ++ file :: rest} {sql : List Text} :
    Step dialect (.busy plan (.committed h sql))
      (.log (.audit direction.action (auditFields dialect plan file sql))) ()
      (.busy plan (.treating (h.trans (List.append_cons done file rest))))
  | disconnect {direction : Direction} {plan : Plan direction} {progress : Progress}
    {rest : List MigrationFile} {h : Reaches plan.files progress rest} {phase : Phase plan.files}
    (hleaves : Leaves dialect direction h phase) {reply : Except Failure Unit} :
    Step dialect (.busy plan phase) .disconnect reply (.busy plan (.left h))
  | record {plan : Plan .apply} {progress : Progress} {rest : List MigrationFile}
    {h : Reaches plan.files progress rest} (hne : progress.committed ≠ [])
    {reply : Except Failure Ledger.State} :
    Step dialect (.busy plan (.left h)) (.record progress.committed) reply
      (.busy plan (.updated h hne reply))
  | remove {plan : Plan .rollBack} {progress : Progress} {rest : List MigrationFile}
    {h : Reaches plan.files progress rest} (hne : progress.committed ≠ [])
    {reply : Except Failure Ledger.State} :
    Step dialect (.busy plan (.left h)) (.remove (progress.committed.map (·.name))) reply
      (.busy plan (.updated h hne reply))

/-- The result of a run, without and with a plan that was carried out up to a batch. -/
structure Results (α : Type) (direction : Direction) where
  idle : Ledger.State → List MigrationFile → α
  success : Plan direction → List MigrationFile → Int → α

inductive Station.Ends {α : Type} {direction : Direction} (results : Results α direction)
    (ledger : Path) : Except Failure α → Station direction → Prop
  | halted {entries : List Ledger.Entry} {read : List MigrationFile} {e : Failure} :
    Ends results ledger (.error e) (.halted entries read e)
  | refused {state : Ledger.State} {read : List MigrationFile} {e : Failure}
    (h : prepare read direction state = .error e) :
    Ends results ledger (.error e) (.opened state read)
  | idle {state : Ledger.State} {read : List MigrationFile}
    (h : prepare read direction state = .ok []) :
    Ends results ledger (.ok (results.idle state read)) (.opened state read)
  | stopped {plan : Plan direction} {progress : Progress} {rest : List MigrationFile}
    {h : Reaches plan.files progress rest} (hnone : progress.committed = []) {e : Failure}
    (hstopped : progress.stopped = some e) : Ends results ledger (.error e) (.busy plan (.left h))
  | told {plan : Plan direction} {progress : Progress} {rest : List MigrationFile}
    {h : Reaches plan.files progress rest} {hne : progress.committed ≠ []} {new : Ledger.State} :
    Ends results ledger
      (progress.stopped.elim
        (.ok (results.success plan progress.committed new.currentBatch)) .error)
      (.busy plan (.updated h hne (.ok new)))
  | inconsistent {plan : Plan direction} {progress : Progress} {rest : List MigrationFile}
    {h : Reaches plan.files progress rest} {hne : progress.committed ≠ []} {cause : Failure} :
    Ends results ledger
      (.error (.inconsistent direction ledger (progress.committed.map (·.name)) cause))
      (.busy plan (.updated h hne (.error cause)))

section Programs

variable {α β S : Type} {server : Server Access S} {s : S} {Q : Except Failure α → S → Prop}

theorem ensures_demand_bind {p : Program Access Failure (Except Failure β)}
    {f : β → Program Access Failure α}
    (h : Ensures server p s
      (Program.Then (Program.Then (fun b s => Ensures server (f b) s Q) Q) Q)) :
    Ensures server (demand p >>= f) s Q := by
  unfold demand
  rw [Program.ensures_bind, Program.ensures_bind]
  apply h.mono
  intro outcome s' hthen
  cases outcome with
  | error e => exact hthen
  | ok reply =>
    change Ensures server (Program.ofExcept reply) s' _
    rw [Program.ensures_ofExcept]
    exact hthen

end Programs

namespace Station

def server (dialect : Sql.Dialect) (direction : Direction) : Server Access (Station direction) where
  Admits r station := ∀ reply, ∃ station', Step dialect station r reply station'
  Serves r station reply station' := Step dialect station r reply station'

variable {α β : Type} {dialect : Sql.Dialect} {direction : Direction} {ledger : Path}
  {station : Station direction} {results : Results α direction}

theorem message_bind {level : Log.Level} {text : Text} {fields : List Log.Field}
    {f : Unit → Program Access Failure α} {Q : Except Failure α → Station direction → Prop}
    (haside : Log.Apart Log.auditMark text)
    (hf : Ensures (server dialect direction) (f ()) station Q) :
    Ensures (server dialect direction) (HasLog.log (.message level text fields) >>= f) station
      Q := by
  refine ⟨fun _ => ⟨station, .message haside⟩, fun reply station' hstep => ?_⟩
  cases hstep with
  | message => exact hf

section Treating

variable {plan : Plan direction} {done rest : List MigrationFile} {file : MigrationFile}

/-- What treats the files of a plan commits one transaction of each, and tells so. -/
def Treats (dialect : Sql.Dialect) (plan : Plan direction)
    (treat : MigrationFile → Program Access Failure Unit) : Prop :=
  ∀ done file rest (h : plan.files = done ++ file :: rest),
    Ensures (server dialect direction) (treat file) (.busy plan (.treating h))
      fun outcome station =>
        match outcome with
        | .ok _ => station = .busy plan (.treating (h.trans (List.append_cons done file rest)))
        | .error e => ∃ phase, station = .busy plan phase ∧
          Leaves dialect direction (.failed h (List.cons_ne_nil file rest) e) phase

variable {treat : MigrationFile → Program Access Failure Unit}

theorem treats_of_execute {text text' : String} {fields : MigrationFile → List Log.Field}
    {fields' : MigrationFile → Failure → List Log.Field} (plan : Plan direction)
    (htreat : ∀ file, treat file = do
      Log.info text (fields file)
      match ← (execute dialect direction file).attempt with
      | .ok sql => HasLog.log (.audit direction.action (auditFields dialect plan file sql))
      | .error e =>
        Log.error text' (fields' file e)
        throw e)
    (haside : Log.Apart Log.auditMark (ascii text))
    (haside' : Log.Apart Log.auditMark (ascii text')) : Treats dialect plan treat := by
  intro done file rest h
  rw [htreat]
  apply message_bind haside
  unfold execute
  rw [Program.ensures_bind, Program.ensures_attempt, Program.ensures_bind, Program.ensures_ofExcept]
  cases hsql : statements dialect direction file with
  | error e => exact message_bind haside' ⟨_, rfl, .unreadable h hsql⟩
  | ok sql =>
    refine ⟨fun reply => ?_, fun reply station hstep => ?_⟩
    . cases reply with
      | ok _ => exact ⟨_, .transaction hsql⟩
      | error e => exact ⟨_, .transactionFailed hsql⟩
    cases hstep with
    | transactionFailed => exact message_bind haside' ⟨_, rfl, .failed _⟩
    | transaction =>
      refine ⟨fun _ => ⟨_, .tell⟩, fun reply station hstep => ?_⟩
      cases hstep with
      | tell => rfl

theorem treats_applyFile (plan : Plan .apply) : Treats dialect plan (applyFile dialect) :=
  treats_of_execute plan (fun _ => rfl) (by decide) (by decide)

theorem treats_rollBackFile (plan : Plan .rollBack) :
    Treats dialect plan (rollBackFile dialect plan.state.currentBatch) :=
  treats_of_execute plan (fun _ => rfl) (by decide) (by decide)

theorem Treats.forEachFile (htreats : Treats dialect plan treat) (h : plan.files = done ++ rest) :
    Ensures (server dialect direction) (forEachFile treat rest) (.busy plan (.treating h))
      fun outcome station => ∃ committed stopped? rest' phase,
        ∃ hreaches : Reaches plan.files ⟨done ++ committed, stopped?⟩ rest',
          outcome = .ok ⟨committed, stopped?⟩ ∧ station = .busy plan phase ∧
            Leaves dialect direction hreaches phase := by
  induction rest generalizing done with
  | nil =>
    have hdone : plan.files = (done ++ []) ++ [] := by rw [List.append_nil, h]
    refine ⟨[], none, [], .treating h, .finished hdone, rfl, rfl, ?_⟩
    simp only [List.append_nil]
    exact .finished h
  | cons file rest ih =>
    unfold Run.forEachFile
    rw [Program.ensures_bind, Program.ensures_attempt]
    apply (htreats done file rest h).mono
    intro outcome station hstation
    cases outcome with
    | error e =>
      have hdone : plan.files = (done ++ []) ++ file :: rest := by rw [h, List.append_nil]
      obtain ⟨phase, rfl, hleaves⟩ := hstation
      refine ⟨[], some e, file :: rest, phase, .failed hdone (List.cons_ne_nil _ _) e, rfl, rfl, ?_⟩
      simp only [List.append_nil]
      exact hleaves
    | ok _ =>
      change station = _ at hstation
      subst hstation
      change Ensures _ (Run.forEachFile treat rest >>= _) _ _
      rw [Program.ensures_bind]
      apply (ih _).mono
      rintro _ _ ⟨committed, stopped?, rest', phase, hreaches, rfl, rfl, hleaves⟩
      have hassoc : done ++ [file] ++ committed = done ++ file :: committed := by simp
      simp only [hassoc] at hreaches hleaves
      exact ⟨file :: committed, stopped?, rest', phase, hreaches, rfl, rfl, hleaves⟩

/-- Wherever a run gives up its connection, it is known how far it has come. -/
theorem disconnect_ensures {progress : Progress} {h : Reaches plan.files progress rest}
    {phase : Phase plan.files} (hleaves : Leaves dialect direction h phase) :
    Ensures (server dialect direction) (disconnect >>= fun _ => pure progress) (.busy plan phase)
      fun outcome station => outcome = .ok progress ∧ station = .busy plan (.left h) := by
  refine ⟨fun _ => ⟨_, .disconnect hleaves⟩, fun reply station' hstep => ?_⟩
  have hsame : station' = .busy plan (.left h) := by
    cases hstep with
    | disconnect hleaves' =>
      cases hleaves with
      | failed =>
        cases hleaves'
        rfl
      | finished =>
        cases hleaves'
        rfl
      | unreadable _ hsql =>
        cases hleaves' with
        | unreadable _ hsql' =>
          cases hsql.symm.trans hsql'
          rfl
  subst hsame
  cases reply with
  | ok _ => exact ⟨rfl, rfl⟩
  | error e => exact message_bind (by decide) ⟨rfl, rfl⟩

theorem Treats.whileConnected (htreats : Treats dialect plan treat) :
    Ensures (server dialect direction) (whileConnected treat plan.files) (.busy plan .ready)
      fun outcome station => ∃ progress rest, ∃ h : Reaches plan.files progress rest,
        outcome = .ok progress ∧ station = .busy plan (.left h) := by
  unfold Run.whileConnected
  refine ⟨fun reply => ?_, fun reply station hstep => ?_⟩
  . cases reply with
    | ok _ => exact ⟨_, .connect⟩
    | error e => exact ⟨_, .connectFailed⟩
  cases hstep with
  | connectFailed =>
    apply (disconnect_ensures (.failed _)).mono
    rintro _ _ ⟨rfl, rfl⟩
    exact ⟨_, _, _, rfl, rfl⟩
  | connect =>
    change Ensures _ (Run.forEachFile treat plan.files >>= _) _ _
    rw [Program.ensures_bind]
    apply (htreats.forEachFile _).mono
    rintro _ _ ⟨committed, stopped?, rest, phase, hreaches, rfl, rfl, hleaves⟩
    apply (disconnect_ensures hleaves).mono
    rintro _ _ ⟨rfl, rfl⟩
    exact ⟨_, _, _, rfl, rfl⟩

end Treating

section Telling

variable {plan : Plan direction} {progress : Progress} {rest : List MigrationFile}
  {h : Reaches plan.files progress rest}

inductive Told (plan : Plan direction) (h : Reaches plan.files progress rest) :
    Int → Station direction → Prop
  | nothing (hnone : progress.committed = []) (batch : Int) :
    Told plan h batch (.busy plan (.left h))
  | told (hne : progress.committed ≠ []) (new : Ledger.State) :
    Told plan h new.currentBatch (.busy plan (.updated h hne (.ok new)))

theorem Told.ends_error {batch : Int} (htold : Told plan h batch station) {e : Failure}
    (hstopped : progress.stopped = some e) : Ends results ledger (.error e) station := by
  cases htold with
  | nothing hnone => exact .stopped hnone hstopped
  | told hne new =>
    have hends : Ends results ledger _ (.busy plan (.updated h hne (.ok new))) := .told
    rw [hstopped] at hends
    exact hends

theorem Told.ends_ok {batch : Int} (htold : Told plan h batch station)
    (hstopped : progress.stopped = none) :
    Ends results ledger (.ok (results.success plan progress.committed batch)) station := by
  cases htold with
  | nothing hnone =>
    -- Some file was to be treated, so that something stopped a run which treated none.
    have hfiles := h.files_eq
    rw [hnone, h.stopped.mp hstopped] at hfiles
    exact absurd hfiles plan.nonempty
  | told hne new =>
    have hends : Ends results ledger _ (.busy plan (.updated h hne (.ok new))) := .told
    rw [hstopped] at hends
    exact hends

theorem inconsistent_bind {hne : progress.committed ≠ []} {cause : Failure}
    {f : β → Program Access Failure α} :
    Ensures (server dialect direction)
      (inconsistent direction ledger (progress.committed.map (·.name)) cause >>= f)
      (.busy plan (.updated h hne (.error cause))) (Ends results ledger) := by
  unfold inconsistent Log.error
  rw [Program.bind_assoc]
  exact message_bind (by decide) .inconsistent

end Telling

theorem recordCommitted_bind {plan : Plan .apply} {progress : Progress} {rest : List MigrationFile}
    {h : Reaches plan.files progress rest} {results : Results α .apply}
    {f : Int → Program Access Failure α}
    (hf : ∀ batch station, Told plan h batch station →
      Ensures (server dialect .apply) (f batch) station (Ends results ledger)) :
    Ensures (server dialect .apply) (recordCommitted ledger progress.committed >>= f)
      (.busy plan (.left h)) (Ends results ledger) := by
  unfold recordCommitted
  split
  . next hempty => exact hf 0 _ (.nothing (List.isEmpty_iff.mp hempty) 0)
  . next hne =>
    refine ⟨fun _ => ⟨_, .record (mt List.isEmpty_iff.mpr hne)⟩, fun reply station hstep => ?_⟩
    cases hstep with
    | record =>
      cases reply with
      | error e => exact inconsistent_bind
      | ok new => exact hf _ _ (.told _ new)

theorem removeCommitted_bind {plan : Plan .rollBack} {progress : Progress}
    {rest : List MigrationFile} {h : Reaches plan.files progress rest}
    {results : Results α .rollBack} {f : Int → Program Access Failure α}
    (hf : ∀ batch station, Told plan h batch station →
      Ensures (server dialect .rollBack) (f batch) station (Ends results ledger)) :
    Ensures (server dialect .rollBack)
      (removeCommitted ledger plan.state (progress.committed.map (·.name)) >>= f)
      (.busy plan (.left h)) (Ends results ledger) := by
  unfold removeCommitted
  split
  . next hempty =>
    rw [List.isEmpty_iff, List.map_eq_nil_iff] at hempty
    exact hf _ _ (.nothing hempty _)
  . next hne =>
    rw [List.isEmpty_iff, List.map_eq_nil_iff] at hne
    refine ⟨fun _ => ⟨_, .remove hne⟩, fun reply station hstep => ?_⟩
    cases hstep with
    | remove =>
      cases reply with
      | error e => exact inconsistent_bind
      | ok new => exact hf _ _ (.told _ new)

/-- A run reads the ledger and the migration files. -/
theorem opening_ensures {f : Ledger.State → List MigrationFile → Program Access Failure α}
    (hf : ∀ state read, Ensures (server dialect direction) (f state read) (.opened state read)
      (Ends results ledger)) :
    Ensures (server dialect direction)
      (do
        let state ← demand (ask .load)
        let read ← demand (ask .loadFiles)
        f state read)
      .start (Ends results ledger) := by
  apply ensures_demand_bind
  refine ⟨fun reply => ?_, fun reply station hstep => ?_⟩
  . cases reply with
    | ok state => exact ⟨_, .load⟩
    | error e => exact ⟨_, .loadFailed⟩
  cases hstep with
  | loadFailed => exact .halted
  | @load _ state =>
    apply ensures_demand_bind
    refine ⟨fun reply => ?_, fun reply station hstep => ?_⟩
    . cases reply with
      | ok read => exact ⟨_, .loadFiles⟩
      | error e => exact ⟨_, .loadFilesFailed⟩
    cases hstep with
    | loadFilesFailed => exact .halted
    | @loadFiles _ _ read => exact hf state read

/-- From the probe of the ledger to the last file that is treated. -/
theorem treating_ensures {plan : Plan direction}
    {treat : MigrationFile → Program Access Failure Unit} (htreats : Treats dialect plan treat)
    {f : Progress → Program Access Failure α}
    (hf : ∀ progress rest (h : Reaches plan.files progress rest),
      Ensures (server dialect direction) (f progress) (.busy plan (.left h))
        (Ends results ledger)) :
    Ensures (server dialect direction)
      (do
        demand (ask .probe)
        let progress ← whileConnected treat plan.files
        f progress)
      (.opened plan.state plan.read) (Ends results ledger) := by
  apply ensures_demand_bind
  refine ⟨fun reply => ?_, fun reply station hstep => ?_⟩
  . cases reply with
    | ok _ => exact ⟨_, .probe plan⟩
    | error e => exact ⟨_, .probeFailed plan⟩
  generalize hstate : plan.state = state at hstep
  generalize hread : plan.read = read at hstep
  cases hstep with
  | probeFailed => exact .halted
  | probe plan' =>
    obtain rfl := Plan.eq_of_read hstate hread
    change Ensures _ (whileConnected treat plan.files >>= f) _ _
    rw [Program.ensures_bind]
    apply htreats.whileConnected.mono
    rintro _ _ ⟨progress, rest, h, rfl, rfl⟩
    exact hf progress rest h

def upResults : Results Applied .apply where
  idle state read := ⟨[], (read.map (·.name)).filter state.isApplied, 0⟩
  success plan committed batch :=
    ⟨committed.map (·.name), (plan.read.map (·.name)).filter plan.state.isApplied, batch⟩

def downResults : Results RolledBack .rollBack where
  idle _ _ := ⟨[], 0⟩
  success plan committed _ := ⟨committed.map (·.name), plan.state.currentBatch⟩

theorem up_ends (dialect : Sql.Dialect) (ledger : Path) :
    Ensures (server dialect .apply) (up dialect ledger) .start (Ends upResults ledger) := by
  unfold up
  refine opening_ensures fun state read => ?_
  rw [Program.ensures_bind, Program.ensures_ofExcept]
  cases hvalidate : state.validate read with
  | error e => exact .refused (by rw [prepare, hvalidate]; rfl)
  | ok _ =>
  have hprepare : prepare read .apply state = agenda read .apply state := by
    rw [prepare, hvalidate]
    rfl
  change Ensures _ (ite _ _ _) _ _
  split
  . next hempty =>
    apply message_bind (by decide)
    refine .idle (hprepare.trans ?_)
    rw [agenda, List.isEmpty_iff.mp hempty]
    rfl
  . next hne =>
    rw [Program.ensures_bind, Program.ensures_ofExcept]
    change Program.Then _ _ (agenda read .apply state) _
    cases hagenda : agenda read .apply state with
    | error e => exact .refused (hprepare.trans hagenda)
    | ok files =>
      let plan : Plan .apply :=
        ⟨state, read, files, hprepare.trans hagenda,
          ne_nil_of_mapM_ok hagenda (mt List.isEmpty_iff.mpr hne)⟩
      refine treating_ensures (treats_applyFile plan) fun progress rest h => ?_
      refine recordCommitted_bind fun batch station htold => ?_
      split
      . next e hstopped =>
        dsimp only
        split
        . exact message_bind (by decide) (htold.ends_error hstopped)
        . exact htold.ends_error hstopped
      . next hstopped => exact message_bind (by decide) (htold.ends_ok hstopped)

theorem down_ends (dialect : Sql.Dialect) (ledger : Path) :
    Ensures (server dialect .rollBack) (down dialect ledger) .start (Ends downResults ledger) := by
  unfold down
  refine opening_ensures fun state read => ?_
  dsimp only
  split
  . next hempty =>
    apply message_bind (by decide)
    refine .idle ?_
    rw [prepare, agenda, List.isEmpty_iff.mp hempty]
    rfl
  . next hne =>
    rw [Program.ensures_bind, Program.ensures_ofExcept]
    change Program.Then _ _ (agenda read .rollBack state) _
    cases hagenda : agenda read .rollBack state with
    | error e => exact .refused hagenda
    | ok files =>
      let plan : Plan .rollBack :=
        ⟨state, read, files, hagenda, ne_nil_of_mapM_ok hagenda (mt List.isEmpty_iff.mpr hne)⟩
      refine treating_ensures (treats_rollBackFile plan) fun progress rest h => ?_
      change Ensures _ (removeCommitted ledger plan.state _ >>= _) _ _
      refine removeCommitted_bind fun batch station htold => ?_
      split
      . next e hstopped => exact htold.ends_error hstopped
      . next hstopped => exact message_bind (by decide) (htold.ends_ok hstopped)

end Station

section Accompanies

variable {α S : Type} {dialect : Sql.Dialect} {direction : Direction} {server : Server Access S}

/-- A relation between the stations of a run and the states of a system that all steps keep. -/
structure Accompanies (dialect : Sql.Dialect) (server : Server Access S)
    (R : Station direction → S → Prop) : Prop where
  admits : ∀ {station r reply station' s}, Station.Step dialect station r reply station' →
    R station s → server.Admits r s
  serves : ∀ {station r reply station' s s'}, Station.Step dialect station r reply station' →
    R station s → server.Serves r s reply s' → R station' s'

theorem nonempty_reply (r : Request) : Nonempty (Reply r) := by
  cases r with
  | log => exact ⟨()⟩
  | _ => exact ⟨.error (.database [])⟩

namespace Accompanies

variable {R : Station direction → S → Prop} {s : S} {ledger : Path}

/-- What a run ensures of its stations, it ensures of the system that accompanies them. -/
theorem ensures (h : Accompanies dialect server R) {results : Results α direction}
    {p : Program Access Failure α}
    (hp : Ensures (Station.server dialect direction) p .start (Station.Ends results ledger))
    (hs : R .start s) :
    Ensures server p s fun outcome s' =>
      ∃ station, R station s' ∧ Station.Ends results ledger outcome station := by
  refine hp.simulate R (fun r station s hR hadmits => ?_)
    (fun r station s reply s' hR hadmits hserves => ?_) hs
  . obtain ⟨reply⟩ := nonempty_reply r
    obtain ⟨_, hstep⟩ := hadmits reply
    exact h.admits hstep hR
  . obtain ⟨station', hstep⟩ := hadmits reply
    exact ⟨station', hstep, h.serves hstep hR hserves⟩

end Accompanies

end Accompanies

end Run

end SchemaMigration

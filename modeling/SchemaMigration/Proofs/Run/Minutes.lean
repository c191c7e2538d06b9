import SchemaMigration.Proofs.Ledger.Recording
import SchemaMigration.Proofs.Run.Calls
import SchemaMigration.Proofs.Run.Directory
import SchemaMigration.Proofs.Run.Docket

/-!
This module contains the minutes of an upward run: its calls to the database, what happens to the
ledger, and how the run ends. They are looked at as far as the requests of the run go.
-/

namespace SchemaMigration

namespace Ledger

def State.withNextBatch (s : State) (files : List MigrationFile) (appliedAt : Text) : State :=
  ⟨s.entries ++ files.map fun f => ⟨f.name, f.hash, appliedAt, s.currentBatch + 1⟩,
    s.currentBatch + 1⟩

theorem Mutation.Writes.withNextBatch {path : Path} {content? : Option Text} {old new : State}
    {files : List MigrationFile} (h : Writes (.record files) old new)
    (hdecode : decodeFile path content? = .ok old) (hbelow : old.currentBatch < State.maxBatch)
    (hnamed : ∀ f ∈ files, f.name ≠ []) :
    (∃ appliedAt, new = old.withNextBatch files appliedAt) ∧
      decodeFile path (some new.encode) = .ok new := by
  have hzero := (valid_of_decodeFile hdecode).zero_le_currentBatch
  cases h with
  | record appliedAt hne hfresh hutf8 =>
    refine ⟨⟨appliedAt, State.withBatch_eq hzero hbelow files appliedAt⟩, ?_⟩
    exact decodeFile_withBatch hdecode hbelow hne hnamed hfresh hutf8

end Ledger

namespace Run

open Program (Ensures)

inductive Event where
  /-- The ledger could not be read, or it cannot be written. -/
  | refused (e : Failure)
  | recorded (files : List MigrationFile) (reply : Except Failure Ledger.State)

def Event.ofReply : (r : Request) → Reply r → List Event
  | .load, .error e => [.refused e]
  | .probe, .error e => [.refused e]
  | .record files, reply => [.recorded files reply]
  | _, _ => []

inductive Applies (dialect : Sql.Dialect) (file : MigrationFile) :
    List Call → Except Failure Unit → Prop
  | committed {sql : List Text} (hsql : statements dialect .apply file = .ok sql) :
    Applies dialect file [.transaction sql (.ok ())] (.ok ())
  | unreadable {e : Failure} (hsql : statements dialect .apply file = .error e) :
    Applies dialect file [] (.error e)
  | refused {sql : List Text} {text : Text} (hsql : statements dialect .apply file = .ok sql) :
    Applies dialect file [.transaction sql (.error text)] (.error (.database text))

/-- The files `done` are applied from the first on, up to one that fails. -/
inductive Treats (dialect : Sql.Dialect) :
    List MigrationFile → List MigrationFile → List Call → Option Failure → Prop
  | all : Treats dialect [] [] [] none
  | next {file : MigrationFile} {rest done : List MigrationFile} {calls calls' : List Call}
    {stopped? : Option Failure} (hfile : Applies dialect file calls (.ok ()))
    (hrest : Treats dialect rest done calls' stopped?) :
    Treats dialect (file :: rest) (file :: done) (calls ++ calls') stopped?
  | stopped {file : MigrationFile} {rest : List MigrationFile} {calls : List Call} {e : Failure}
    (hfile : Applies dialect file calls (.error e)) :
    Treats dialect (file :: rest) [] calls (some e)

inductive Commits (dialect : Sql.Dialect) : List MigrationFile → List Call → Prop
  | nil : Commits dialect [] []
  | snoc {done : List MigrationFile} {file : MigrationFile} {calls calls' : List Call}
    (hdone : Commits dialect done calls) (hfile : Applies dialect file calls' (.ok ())) :
    Commits dialect (done ++ [file]) (calls ++ calls')

inductive Works (policy : Connection.Policy) (dialect : Sql.Dialect) (files : List MigrationFile) :
    List MigrationFile → List Call → Option Failure → Prop
  | unconnected {attempts : List Call} {e : Failure}
    (hattempts : Connects (max policy.maxAttempts 1) attempts (.error e)) :
    Works policy dialect files [] attempts (some e)
  | connected {attempts calls : List Call} {done : List MigrationFile} {stopped? : Option Failure}
    (hattempts : Connects (max policy.maxAttempts 1) attempts (.ok ()))
    (htreats : Treats dialect files done calls stopped?) :
    Works policy dialect files done (attempts ++ calls) stopped?

/--
The end of a run that has committed the files `done`: the events, the outcome, and the state of the
ledger behind it. Where recording fails, the ledger may have been written all the same.
-/
inductive Closes (ledger : Path) (state : Ledger.State) (skipped : List Text)
    (done : List MigrationFile) (stopped? : Option Failure) :
    List Event → Except Failure Applied → Ledger.State → Prop
  | nothing {e : Failure} (hdone : done = []) (hstopped : stopped? = some e) :
    Closes ledger state skipped done stopped? [] (.error e) state
  | recorded (hdone : done ≠ []) (appliedAt : Text) :
    Closes ledger state skipped done stopped?
      [.recorded done (.ok (state.withNextBatch done appliedAt))]
      (stopped?.elim (.ok ⟨done.map (·.name), skipped, state.currentBatch + 1⟩) .error)
      (state.withNextBatch done appliedAt)
  | inconsistent {cause : Failure} {behind : Ledger.State} (hdone : done ≠ [])
    (hbehind : behind = state ∨ ∃ appliedAt, behind = state.withNextBatch done appliedAt) :
    Closes ledger state skipped done stopped? [.recorded done (.error cause)]
      (.error (.inconsistent .apply ledger (done.map (·.name)) cause)) behind

def Hindered (options : Options) (d : Migration.Directory) (state : Ledger.State)
    (events : List Event) : Prop :=
  ¬ d.Matches state ∨ ¬ d.Fits options.limits ∨ (∃ e, .refused e ∈ events) ∨ d.pending state = []

section Lemmas

variable {policy : Connection.Policy} {dialect : Sql.Dialect} {files done : List MigrationFile}
  {calls : List Call} {stopped? : Option Failure}

theorem Treats.begins (h : Treats dialect files done calls stopped?) : done <+: files := by
  induction h with
  | all => exact List.nil_prefix
  | next _ _ ih => exact List.cons_prefix_cons.mpr ⟨rfl, ih⟩
  | stopped => exact List.nil_prefix

theorem Commits.treats (h : Commits dialect done calls) {rest done' : List MigrationFile}
    {calls' : List Call} (hrest : Treats dialect rest done' calls' stopped?) :
    Treats dialect (done ++ rest) (done ++ done') (calls ++ calls') stopped? := by
  induction h generalizing rest done' calls' with
  | nil => exact hrest
  | snoc _ hfile ih =>
    simp only [List.append_assoc, List.singleton_append]
    exact ih (.next hfile hrest)

theorem Commits.stopped (h : Commits dialect done calls) {file : MigrationFile}
    {rest : List MigrationFile} {calls' : List Call} {e : Failure}
    (hfiles : files = done ++ file :: rest) (hfile : Applies dialect file calls' (.error e)) :
    Treats dialect files done (calls ++ calls') (some e) := by
  have htreats := h.treats (.stopped hfile : Treats dialect (file :: rest) [] calls' (some e))
  rw [← hfiles, List.append_nil] at htreats
  exact htreats

theorem Commits.finished (h : Commits dialect done calls) (hfiles : files = done ++ []) :
    Treats dialect files done calls none := by
  have htreats := h.treats .all
  rw [List.append_nil, List.append_nil] at htreats
  rw [hfiles, List.append_nil]
  exact htreats

theorem Works.begins (h : Works policy dialect files done calls stopped?) : done <+: files := by
  cases h with
  | unconnected => exact List.nil_prefix
  | connected _ htreats => exact htreats.begins

theorem Works.stopped (h : Works policy dialect files done calls stopped?) (hne : files ≠ [])
    (hdone : done = []) : ∃ e, stopped? = some e := by
  cases h with
  | unconnected => exact ⟨_, rfl⟩
  | connected _ htreats =>
    cases htreats with
    | all => exact absurd rfl hne
    | next => cases hdone
    | stopped => exact ⟨_, rfl⟩

theorem Closes.not_refused {ledger : Path} {state behind : Ledger.State} {skipped : List Text}
    {events : List Event} {outcome : Except Failure Applied}
    (h : Closes ledger state skipped done stopped? events outcome behind) (e : Failure) :
    .refused e ∉ events := by
  cases h with
  | nothing => exact List.not_mem_nil
  | recorded => simp
  | inconsistent => simp

theorem Closes.pending_eq {ledger : Path} {state behind : Ledger.State} {skipped : List Text}
    {events : List Event} {outcome : Except Failure Applied} {d : Migration.Directory}
    {rest : List MigrationFile}
    (h : Closes ledger state skipped done stopped? events outcome behind)
    (hconsistent : ¬ EndsInconsistent outcome) (hvalid : state.Valid)
    (hbelow : state.currentBatch < Ledger.State.maxBatch)
    (hpending : d.pending state = done ++ rest) : behind.pending d.names = rest.map (·.name) := by
  have hnames := d.names_pending state
  rw [hpending] at hnames
  cases h with
  | nothing hdone =>
    rw [← hnames, hdone]
    rfl
  | recorded hdone appliedAt =>
    have hnodup : ((done ++ rest).map (·.name)).Nodup := by
      rw [hnames]
      exact Text.nodup_of_sorted (state.pending_sorted _)
    have hnext : state.withNextBatch done appliedAt = state.withBatch done appliedAt :=
      (Ledger.State.withBatch_eq hvalid.zero_le_currentBatch hbelow done appliedAt).symm
    rw [hnext, Ledger.State.pending_withBatch, ← hnames, List.filter_map]
    exact congrArg _ (filter_names_of_nodup hnodup)
  | inconsistent => exact absurd ⟨_, _, _, _, rfl⟩ hconsistent

end Lemmas

structure Minutes where
  content? : Option Text
  calls : List Call
  events : List Event

namespace Minutes

def Says (options : Options) (d : Migration.Directory) :
    (r : Request) → Reply r → Option Text → Option Text → Prop
  | .listFiles, reply, _, _ => reply = .ok d.names
  | .loadFiles, reply, _, _ => Decides (d.Fits options.limits) d.files reply
  | .record files, .ok new, content?, content?' =>
    ∃ old, Ledger.decodeFile options.ledger content? = .ok old ∧
      Ledger.Mutation.Writes (.record files) old new ∧ content?' = some new.encode
  | _, _, _, _ => True

/-- The requests of a run that has the ledger for itself, with a directory that stays as it is. -/
def server (options : Options) (d : Migration.Directory) : Server Access Minutes where
  Admits _ _ := True
  Serves r m reply m' :=
    Rewrites options.ledger r reply m.content? m'.content? ∧
      Says options d r reply m.content? m'.content? ∧
      (∃ spent, Costs options.connection r reply spent ∧ m'.calls = m.calls ++ spent) ∧
      m'.events = m.events ++ Event.ofReply r reply

def call (m : Minutes) (calls : List Call) : Minutes := { m with calls := m.calls ++ calls }

variable {α : Type} {options : Options} {d : Migration.Directory} {dialect : Sql.Dialect}
  {state : Ledger.State} {m : Minutes} {Q : Except Failure α → Minutes → Prop}

@[simp]
theorem call_nil (m : Minutes) : m.call [] = m := by
  simp [call]

theorem eq_call {m' : Minutes} {spent : List Call} (hcontent : m'.content? = m.content?)
    (hcalls : m'.calls = m.calls ++ spent) (hevents : m'.events = m.events ++ []) :
    m' = m.call spent := by
  rw [List.append_nil] at hevents
  cases m'
  cases hcontent
  cases hcalls
  cases hevents
  rfl

theorem eq_of_same {m' : Minutes} {spent : List Call} (hcontent : m'.content? = m.content?)
    (hcosts : spent = []) (hcalls : m'.calls = m.calls ++ spent)
    (hevents : m'.events = m.events ++ []) : m' = m := by
  subst hcosts
  rw [eq_call hcontent hcalls hevents, call_nil]

theorem eq_of_refused {m' : Minutes} {spent : List Call} {e : Failure} (hcosts : spent = [])
    (hcalls : m'.calls = m.calls ++ spent) (hevents : m'.events = m.events ++ [.refused e]) :
    m' = ⟨m'.content?, m.calls, m.events ++ [.refused e]⟩ := by
  subst hcosts
  rw [← hevents, ← List.append_nil m.calls, ← hcalls]

theorem load_bind (hdecode : Ledger.decodeFile options.ledger m.content? = .ok state)
    {f : Ledger.State → Program Access Failure α} (hf : Ensures (server options d) (f state) m Q)
    (herror : ∀ e, Q (.error e) { m with events := m.events ++ [.refused e] }) :
    Ensures (server options d) (demand (ask .load) >>= f) m Q := by
  apply ensures_demand_bind
  refine ⟨trivial, ?_⟩
  rintro reply m' ⟨⟨hcontent, hload⟩, _, ⟨_, hcosts, hcalls⟩, hevents⟩
  cases reply with
  | error e =>
    rw [eq_of_refused hcosts hcalls hevents, hcontent]
    exact herror e
  | ok loaded =>
    rw [eq_of_same hcontent hcosts hcalls hevents]
    cases hdecode.symm.trans (hload loaded rfl)
    exact hf

inductive Concludes (dialect : Sql.Dialect) (options : Options) (d : Migration.Directory)
    (state : Ledger.State) : Except Failure Applied → Minutes → Prop
  | idle {outcome : Except Failure Applied} {m : Minutes}
    (hhindered : Hindered options d state m.events) (hcalls : m.calls = [])
    (hdecode : Ledger.decodeFile options.ledger m.content? = .ok state) :
    Concludes dialect options d state outcome m
  | busy {outcome : Except Failure Applied} {m : Minutes} {done : List MigrationFile}
    {calls : List Call} {stopped? : Option Failure} {answer : Except Text Unit}
    {behind : Ledger.State} (hfree : ¬ Hindered options d state m.events)
    (hworks : Works options.connection dialect (d.pending state) done calls stopped?)
    (hcalls : m.calls = calls ++ [.disconnect answer])
    (hdecode : Ledger.decodeFile options.ledger m.content? = .ok behind)
    (hcloses : Closes options.ledger state (d.names.filter state.isApplied) done stopped? m.events
      outcome behind) : Concludes dialect options d state outcome m

def Calls (policy : Connection.Policy) (dialect : Sql.Dialect) {files : List MigrationFile} :
    Phase files → List Call → Prop
  | .ready, calls => calls = []
  | @Phase.treating _ done _ _, calls =>
    ∃ attempts work, calls = attempts ++ work ∧
      Connects (max policy.maxAttempts 1) attempts (.ok ()) ∧ Commits dialect done work
  | @Phase.committed _ done _ file _ _, calls =>
    ∃ attempts work, calls = attempts ++ work ∧
      Connects (max policy.maxAttempts 1) attempts (.ok ()) ∧ Commits dialect (done ++ [file]) work
  | @Phase.failed _ progress _ _, calls =>
    Works policy dialect files progress.committed calls progress.stopped
  | @Phase.left _ progress _ _, calls | @Phase.updated _ progress _ _ _ _, calls =>
    ∃ work answer, calls = work ++ [.disconnect answer] ∧
      Works policy dialect files progress.committed work progress.stopped

def Books (ledger : Path) (state : Ledger.State) {files : List MigrationFile}
    (phase : Phase files) (m : Minutes) : Prop :=
  match phase.reply? with
  | none => m.events = [] ∧ Ledger.decodeFile ledger m.content? = .ok state
  | some (.ok new) =>
    m.events = [.recorded phase.done (.ok new)] ∧ Ledger.decodeFile ledger m.content? = .ok new ∧
      ∃ appliedAt, new = state.withNextBatch phase.done appliedAt
  | some (.error cause) =>
    m.events = [.recorded phase.done (.error cause)] ∧
      ∃ behind, Ledger.decodeFile ledger m.content? = .ok behind ∧
        (behind = state ∨ ∃ appliedAt, behind = state.withNextBatch phase.done appliedAt)

structure Busy (dialect : Sql.Dialect) (options : Options) (d : Migration.Directory)
    (state : Ledger.State) (plan : Plan .apply) (phase : Phase plan.files) (m : Minutes) :
    Prop where
  state_eq : plan.state = state
  read_eq : plan.read = d.files
  fits : d.Fits options.limits
  calls : Calls options.connection dialect phase m.calls
  books : Books options.ledger state phase m

def Follows (dialect : Sql.Dialect) (options : Options) (d : Migration.Directory)
    (state : Ledger.State) (content? : Option Text) : Station .apply → Minutes → Prop
  | .start, m => m = ⟨content?, [], []⟩
  | .loaded state', m => m = ⟨content?, [], []⟩ ∧ state' = state
  | .opened state' read, m =>
    m = ⟨content?, [], []⟩ ∧ state' = state ∧ read = d.files ∧ d.Fits options.limits
  | .halted .., m =>
    Hindered options d state m.events ∧ m.calls = [] ∧
      Ledger.decodeFile options.ledger m.content? = .ok state
  | .busy plan phase, m => Busy dialect options d state plan phase m

namespace Busy

variable {plan : Plan .apply} {phase phase' : Phase plan.files} {m' : Minutes}

theorem matches_and_pending (h : Busy dialect options d state plan phase m) :
    d.Matches state ∧ plan.files = d.pending state := by
  have hprepared := plan.prepared
  rw [h.state_eq, h.read_eq, prepare, d.agenda_eq_pending] at hprepared
  have hvalidate := d.validate_decides state
  generalize state.validate d.files = outcome at hvalidate hprepared
  cases hvalidate with
  | refused => cases hprepared
  | granted hmatches =>
    injection hprepared with hfiles
    exact ⟨hmatches, hfiles.symm⟩

/-- A request that the ledger has no part in leads to another phase. -/
theorem call (h : Busy dialect options d state plan phase m) {spent : List Call}
    (hreply : phase.reply? = none) (hreply' : phase'.reply? = none)
    (hcalls : Calls options.connection dialect phase' (m.calls ++ spent)) :
    Busy dialect options d state plan phase' (m.call spent) where
  state_eq := h.state_eq
  read_eq := h.read_eq
  fits := h.fits
  calls := hcalls
  books := by
    have hbooks := h.books
    rw [Books, hreply] at hbooks
    rw [Books, hreply']
    exact hbooks

/-- A run that applies files was not hindered. -/
theorem concludes (h : Busy dialect options d state plan phase m) {done : List MigrationFile}
    {stopped? : Option Failure} {calls : List Call} {answer : Except Text Unit}
    (hcalls : m.calls = calls ++ [.disconnect answer])
    (hworks : Works options.connection dialect plan.files done calls stopped?)
    {behind : Ledger.State} (hdecode : Ledger.decodeFile options.ledger m.content? = .ok behind)
    {outcome : Except Failure Applied}
    (hcloses : Closes options.ledger state (d.names.filter state.isApplied) done stopped? m.events
      outcome behind) : Concludes dialect options d state outcome m := by
  obtain ⟨hmatches, hpending⟩ := h.matches_and_pending
  rw [hpending] at hworks
  refine .busy ?_ hworks hcalls hdecode hcloses
  rintro (hmatches' | hfits' | ⟨e, hrefused⟩ | hnil)
  . exact hmatches' hmatches
  . exact hfits' h.fits
  . exact hcloses.not_refused e hrefused
  . exact plan.nonempty (hpending.trans hnil)

theorem name_ne_nil (h : Busy dialect options d state plan phase m) {file : MigrationFile}
    (hfile : file ∈ phase.done) : file.name ≠ [] := by
  obtain ⟨rest, hfiles⟩ := phase.exists_eq_append
  have hmem : file ∈ d.pending state := by
    rw [← h.matches_and_pending.2, hfiles]
    exact List.mem_append_left _ hfile
  obtain ⟨name, hname, rfl⟩ := List.mem_map.mp hmem
  exact Migration.Directory.ne_nil_of_mem_names (Ledger.State.mem_pending.mp hname).1

theorem record {progress : Progress} {rest : List MigrationFile}
    {hreaches : Reaches plan.files progress rest}
    (h : Busy dialect options d state plan (.left hreaches) m)
    (hbelow : state.currentBatch < Ledger.State.maxBatch) {hne : progress.committed ≠ []}
    {reply : Except Failure Ledger.State}
    (hserves : (server options d).Serves (.record progress.committed) m reply m') :
    Busy dialect options d state plan (.updated hreaches hne reply) m' := by
  obtain ⟨hrewrites, hsays, ⟨_, rfl, hcalls⟩, hevents⟩ := hserves
  obtain ⟨hnone, hdecode⟩ := h.books
  have hnamed : ∀ file ∈ progress.committed, file.name ≠ [] := fun _ => h.name_ne_nil
  rw [hnone] at hevents
  refine ⟨h.state_eq, h.read_eq, h.fits, ?_, ?_⟩
  . rw [hcalls, List.append_nil]
    exact h.calls
  cases reply with
  | ok new =>
    obtain ⟨old, hdecode', hwrites, hcontent⟩ := hsays
    cases hdecode.symm.trans hdecode'
    obtain ⟨hnext, hread⟩ := hwrites.withNextBatch hdecode hbelow hnamed
    rw [← hcontent] at hread
    exact ⟨hevents, hread, hnext⟩
  | error cause =>
    change Ledger.Mutated options.ledger (.record progress.committed) m.content? false m'.content?
      at hrewrites
    refine ⟨hevents, ?_⟩
    generalize m'.content? = content? at hrewrites
    cases hrewrites with
    | kept => exact ⟨state, hdecode, .inl rfl⟩
    | wrote hdecode' hwrites =>
      cases hdecode.symm.trans hdecode'
      obtain ⟨hnext, hread⟩ := hwrites.withNextBatch hdecode hbelow hnamed
      exact ⟨_, hread, .inr hnext⟩

end Busy

/-- Where a run gives up its connection, its work is done. -/
theorem works_of_leaves {files rest : List MigrationFile} {progress : Progress}
    {h : Reaches files progress rest} {phase : Phase files} {calls : List Call}
    (hleaves : Leaves dialect .apply h phase)
    (hcalls : Calls options.connection dialect phase calls) :
    Works options.connection dialect files progress.committed calls progress.stopped := by
  cases hleaves with
  | failed => exact hcalls
  | unreadable hfiles hsql =>
    obtain ⟨attempts, work, rfl, hconnects, hcommits⟩ := hcalls
    have htreats := hcommits.stopped hfiles (.unreadable hsql)
    rw [List.append_nil] at htreats
    exact .connected hconnects htreats
  | finished hfiles =>
    obtain ⟨attempts, work, rfl, hconnects, hcommits⟩ := hcalls
    exact .connected hconnects (hcommits.finished hfiles)

theorem accompanies (dialect : Sql.Dialect) (d : Migration.Directory) {content? : Option Text}
    (hdecode : Ledger.decodeFile options.ledger content? = .ok state)
    (hbelow : state.currentBatch < Ledger.State.maxBatch) :
    Accompanies dialect (server options d) (Follows dialect options d state content?) where
  admits _ _ := trivial
  serves := by
    rintro station r reply station' m m' hstep hfollows hserves
    have ⟨hrewrites, hsays, ⟨spent, hcosts, hcalls⟩, hevents⟩ := hserves
    cases hstep with
    | message =>
      obtain rfl := eq_of_same hrewrites hcosts hcalls hevents
      exact hfollows
    | load =>
      obtain rfl := hfollows
      obtain rfl := eq_of_same hrewrites.1 hcosts hcalls hevents
      cases hdecode.symm.trans (hrewrites.2 _ rfl)
      exact ⟨rfl, rfl⟩
    | @loadFailed _ e =>
      obtain rfl := hfollows
      rw [eq_of_refused hcosts hcalls hevents, hrewrites.1]
      exact ⟨.inr (.inr (.inl ⟨e, List.mem_singleton_self _⟩)), rfl, hdecode⟩
    | loadFiles =>
      obtain ⟨rfl, rfl⟩ := hfollows
      obtain rfl := eq_of_same hrewrites hcosts hcalls hevents
      cases hsays with
      | granted hfits => exact ⟨rfl, rfl, rfl, hfits⟩
    | loadFilesFailed =>
      obtain ⟨rfl, rfl⟩ := hfollows
      obtain rfl := eq_of_same hrewrites hcosts hcalls hevents
      cases hsays with
      | refused hfits e => exact ⟨.inr (.inl hfits), rfl, hdecode⟩
    | probe plan =>
      -- The probe may write the ledger file anew, but not with another state.
      obtain ⟨rfl, hstate, hread, hfits⟩ := hfollows
      have hdecode' := (Ledger.Restated.decodeFile_eq hrewrites).trans hdecode
      have hsame : m' = ⟨m'.content?, [], []⟩ := eq_of_same rfl hcosts hcalls hevents
      rw [hsame]
      exact ⟨hstate, hread, hfits, rfl, rfl, hdecode'⟩
    | @probeFailed _ _ plan e =>
      obtain ⟨rfl, _⟩ := hfollows
      have hdecode' := (Ledger.Restated.decodeFile_eq hrewrites).trans hdecode
      rw [eq_of_refused hcosts hcalls hevents]
      exact ⟨.inr (.inr (.inl ⟨e, List.mem_singleton_self _⟩)), rfl, hdecode'⟩
    | connect =>
      obtain rfl := eq_call hrewrites hcalls hevents
      have hnone : m.calls = [] := hfollows.calls
      refine hfollows.call rfl rfl ⟨spent, [], ?_, hcosts, .nil⟩
      rw [hnone, List.append_nil]
      rfl
    | connectFailed =>
      obtain rfl := eq_call hrewrites hcalls hevents
      have hnone : m.calls = [] := hfollows.calls
      refine hfollows.call rfl rfl ?_
      rw [hnone]
      exact .unconnected hcosts
    | transaction hsql =>
      obtain ⟨answer, hanswer, rfl⟩ := hcosts
      obtain rfl := eq_call hrewrites hcalls hevents
      obtain ⟨attempts, work, hwork, hconnects, hcommits⟩ := hfollows.calls
      cases answer with
      | error text => cases hanswer
      | ok _ =>
        refine hfollows.call rfl rfl ⟨attempts, _, ?_, hconnects, hcommits.snoc (.committed hsql)⟩
        rw [hwork, List.append_assoc]
    | @transactionFailed _ plan done rest file h sql hsql =>
      obtain ⟨answer, hanswer, rfl⟩ := hcosts
      obtain rfl := eq_call hrewrites hcalls hevents
      obtain ⟨attempts, work, hwork, hconnects, hcommits⟩ := hfollows.calls
      cases answer with
      | ok _ => cases hanswer
      | error text =>
        cases hanswer
        refine hfollows.call rfl rfl ?_
        rw [hwork, List.append_assoc]
        exact .connected hconnects (hcommits.stopped h (.refused hsql))
    | tell =>
      obtain rfl := eq_of_same hrewrites hcosts hcalls hevents
      rw [← m'.call_nil]
      refine hfollows.call rfl rfl ?_
      rw [List.append_nil]
      exact hfollows.calls
    | disconnect hleaves =>
      obtain ⟨answer, hanswer, rfl⟩ := hcosts
      obtain rfl := eq_call hrewrites hcalls hevents
      have hworks := works_of_leaves hleaves hfollows.calls
      have hreply : Phase.reply? _ = none := hleaves.reply?_eq
      exact hfollows.call hreply rfl ⟨_, answer, rfl, hworks⟩
    | record => exact hfollows.record hbelow hserves

theorem up_concludes (dialect : Sql.Dialect) (d : Migration.Directory) {content? : Option Text}
    (hdecode : Ledger.decodeFile options.ledger content? = .ok state)
    (hbelow : state.currentBatch < Ledger.State.maxBatch) :
    Ensures (server options d) (up dialect options.ledger) ⟨content?, [], []⟩
      (Concludes dialect options d state) := by
  have haccompanies := accompanies dialect d hdecode hbelow
  apply (haccompanies.ensures (Station.up_ends dialect options.ledger) rfl).mono
  rintro outcome m ⟨station, hfollows, hends⟩
  cases hends with
  | halted => exact .idle hfollows.1 hfollows.2.1 hfollows.2.2
  | @refused state' read e hprepare =>
    obtain ⟨rfl, rfl, rfl, hfits⟩ := hfollows
    rw [prepare, d.agenda_eq_pending] at hprepare
    have hvalidate := d.validate_decides state'
    generalize state'.validate d.files = outcome at hvalidate hprepare
    cases hvalidate with
    | granted => cases hprepare
    | refused hmatches => exact .idle (.inl hmatches) rfl hdecode
  | idle hprepare =>
    obtain ⟨rfl, rfl, rfl, hfits⟩ := hfollows
    have hagenda := agenda_of_prepare hprepare
    rw [d.agenda_eq_pending] at hagenda
    exact .idle (.inr (.inr (.inr (Except.ok.inj hagenda)))) rfl hdecode
  | @stopped plan progress rest h hnone e hstopped =>
    obtain ⟨work, answer, hcalls, hworks⟩ := hfollows.calls
    obtain ⟨hevents, hdecode'⟩ := hfollows.books
    refine hfollows.concludes hcalls hworks hdecode' ?_
    rw [hevents]
    exact .nothing hnone hstopped
  | @told plan progress rest h hne new =>
    obtain ⟨work, answer, hcalls, hworks⟩ := hfollows.calls
    obtain ⟨hevents, hdecode', appliedAt, hnew⟩ := hfollows.books
    refine hfollows.concludes hcalls hworks hdecode' ?_
    dsimp only [Station.upResults]
    rw [hevents, hfollows.read_eq, hfollows.state_eq, d.names_files, hnew]
    exact .recorded hne appliedAt
  | @inconsistent plan progress rest h hne cause =>
    obtain ⟨work, answer, hcalls, hworks⟩ := hfollows.calls
    obtain ⟨hevents, behind, hdecode', hbehind⟩ := hfollows.books
    refine hfollows.concludes hcalls hworks hdecode' ?_
    rw [hevents]
    exact .inconsistent hne hbehind

theorem status_reports (hdecode : Ledger.decodeFile options.ledger m.content? = .ok state) :
    Ensures (server options d) status m fun outcome _ => ∀ report, outcome = .ok report →
      report = ⟨state.entries, state.pending d.names, state.currentBatch⟩ := by
  unfold status
  refine load_bind hdecode ?_ fun e => nofun
  apply ensures_demand_bind
  refine ⟨trivial, ?_⟩
  rintro _ m' ⟨_, rfl, _⟩ report ⟨⟩
  rfl

end Minutes

end Run

end SchemaMigration

import SchemaMigration.Proofs.Run.Account
import SchemaMigration.Proofs.Run.Agenda
import SchemaMigration.Proofs.Run.Service

/-!
This module contains what one run makes of the ledger file and of the database, if nobody else
changes the ledger and the migration files stay as they are. A run that stops has treated the first
files of its agenda and has told the ledger so; one that succeeds has treated all of them.
-/

namespace SchemaMigration

theorem Ledger.Restated.decodeFile_eq {path : Path} {content? content?' : Option Text}
    (h : Restated path content? content?') :
    decodeFile path content?' = decodeFile path content? := by
  obtain rfl | ⟨s, hdecode, rfl⟩ := h
  . rfl
  . rw [hdecode]
    exact decodeFile_encode (inRange_of_decodeFile hdecode) (utf8_of_decodeFile hdecode)
      (fault?_of_decodeFile hdecode)

namespace Run

open Program (Ensures)

structure Work where
  direction : Direction
  file : Text
  statements : List Text
  deriving DecidableEq, Repr

namespace Work

def ofFile (dialect : Sql.Dialect) (direction : Direction) (file : MigrationFile) :
    Except Failure Work :=
  (Run.statements dialect direction file).map fun sql => ⟨direction, file.name, sql⟩

def ofReply : (r : Request) → Reply r → List Work
  | .transaction direction file statements, .ok () => [⟨direction, file, statements⟩]
  | _, _ => []

end Work

def filesOfReply? : (r : Request) → Reply r → Option (List MigrationFile)
  | .loadFiles, .ok files => some files
  | _, _ => none

/-- The content of the ledger file, and the transactions that were committed, the newest last. -/
structure Docket where
  content? : Option Text
  works : List Work

namespace Docket

def server (ledger : Path) (read : List MigrationFile) : Server Access Docket where
  Admits _ _ := True
  Serves r d reply d' :=
    Rewrites ledger r reply d.content? d'.content? ∧
      (∀ files ∈ filesOfReply? r reply, files = read) ∧
      d'.works = d.works ++ Work.ofReply r reply

def commit (d : Docket) (works : List Work) : Docket := { d with works := d.works ++ works }

variable {α : Type} {dialect : Sql.Dialect} {direction : Direction} {ledger : Path}
  {read : List MigrationFile} {d d' d'' : Docket} {works : List Work}

theorem eq_commit (hcontent : d'.content? = d.content?) (hworks : d'.works = d.works ++ works) :
    d' = d.commit works := by
  cases d'
  cases hcontent
  cases hworks
  rfl

@[simp]
theorem commit_nil (d : Docket) : d.commit [] = d := by
  simp [commit]

theorem eq_of_same (hcontent : d'.content? = d.content?) (hworks : d'.works = d.works ++ []) :
    d' = d :=
  (eq_commit hcontent hworks).trans d.commit_nil

inductive Settles (dialect : Sql.Dialect) (direction : Direction) (ledger : Path)
    (read : List MigrationFile) (d : Docket) : Except Failure α → Docket → Prop
  | inconsistent {outcome : Except Failure α} {d' : Docket} (h : EndsInconsistent outcome) :
    Settles dialect direction ledger read d outcome d'
  | stopped {e : Failure} {d' : Docket}
    (hcontent : Ledger.decodeFile ledger d'.content? = Ledger.decodeFile ledger d.content?)
    (hworks : d'.works = d.works) : Settles dialect direction ledger read d (.error e) d'
  | idle {a : α} {state : Ledger.State} (hdecode : Ledger.decodeFile ledger d.content? = .ok state)
    (hagenda : agenda read direction state = .ok []) :
    Settles dialect direction ledger read d (.ok a) d
  | treated {outcome : Except Failure α} {d' : Docket} {state new : Ledger.State}
    {done rest : List MigrationFile} {works : List Work}
    (hdecode : Ledger.decodeFile ledger d.content? = .ok state)
    (hagenda : agenda read direction state = .ok (done ++ rest))
    (hrest : outcome.isOk = true ↔ rest = [])
    (hdone : done.mapM (Work.ofFile dialect direction) = .ok works)
    (hworks : d'.works = d.works ++ works) (htells : Tells state done direction new)
    (hcontent : d'.content? = some new.encode) : Settles dialect direction ledger read d outcome d'

def Says (ledger : Path) (plan : Plan direction) (phase : Phase plan.files)
    (content? : Option Text) : Prop :=
  match phase.reply? with
  | none => Ledger.decodeFile ledger content? = .ok plan.state
  | some (.ok _) => ∃ new, Tells plan.state phase.done direction new ∧ content? = some new.encode
  | some (.error _) => True

structure Busy (dialect : Sql.Dialect) (ledger : Path) (read : List MigrationFile) (d : Docket)
    (plan : Plan direction) (phase : Phase plan.files) (d' : Docket) : Prop where
  decode : Ledger.decodeFile ledger d.content? = .ok plan.state
  read_eq : plan.read = read
  works : ∃ works, phase.done.mapM (Work.ofFile dialect direction) = .ok works ∧
    d'.works = d.works ++ works
  content : Says ledger plan phase d'.content?

def Follows (dialect : Sql.Dialect) (ledger : Path) (read : List MigrationFile) (d : Docket) :
    Station direction → Docket → Prop
  | .start, d' => d' = d
  | .loaded state, d' => d' = d ∧ Ledger.decodeFile ledger d.content? = .ok state
  | .opened state read', d' =>
    d' = d ∧ Ledger.decodeFile ledger d.content? = .ok state ∧ read' = read
  | .halted .., d' =>
    Ledger.decodeFile ledger d'.content? = Ledger.decodeFile ledger d.content? ∧
      d'.works = d.works
  | .busy plan phase, d' => Busy dialect ledger read d plan phase d'

theorem Busy.of_done_eq {plan : Plan direction} {phase phase' : Phase plan.files}
    (h : Busy dialect ledger read d plan phase d') (hdone : phase'.done = phase.done)
    (hreply : phase.reply? = none) (hreply' : phase'.reply? = none) :
    Busy dialect ledger read d plan phase' d' where
  decode := h.decode
  read_eq := h.read_eq
  works := by
    rw [hdone]
    exact h.works
  content := by
    have hcontent := h.content
    rw [Says, hreply] at hcontent
    rw [Says, hreply']
    exact hcontent

theorem Busy.commit {plan : Plan direction} {done rest : List MigrationFile} {file : MigrationFile}
    {h : plan.files = done ++ file :: rest} {sql : List Text}
    (hbusy : Busy dialect ledger read d plan (.treating h) d')
    (hsql : statements dialect direction file = .ok sql) :
    Busy dialect ledger read d plan (.committed h sql)
      (d'.commit [⟨direction, file.name, sql⟩]) where
  decode := hbusy.decode
  read_eq := hbusy.read_eq
  works := by
    obtain ⟨works, hdone, hworks⟩ := hbusy.works
    have hfile : [file].mapM (Work.ofFile dialect direction) =
        .ok [⟨direction, file.name, sql⟩] := by
      rw [List.mapM_cons, Work.ofFile, hsql]
      rfl
    refine ⟨works ++ [⟨direction, file.name, sql⟩], mapM_append_ok hdone hfile, ?_⟩
    rw [Docket.commit, hworks, List.append_assoc]
  content := hbusy.content

/-- The ledger is told of what was committed, in the state in which the run has read it. -/
theorem Busy.update {plan : Plan direction} {progress : Progress} {rest : List MigrationFile}
    {h : Reaches plan.files progress rest} (hbusy : Busy dialect ledger read d plan (.left h) d')
    {hne : progress.committed ≠ []} {reply : Except Failure Ledger.State}
    (hworks : d''.works = d'.works ++ [])
    (hcontent : ∀ new, reply = .ok new →
      ∃ new, Tells plan.state progress.committed direction new ∧ d''.content? = some new.encode) :
    Busy dialect ledger read d plan (.updated h hne reply) d'' where
  decode := hbusy.decode
  read_eq := hbusy.read_eq
  works := by
    rw [hworks, List.append_nil]
    exact hbusy.works
  content := by
    cases reply with
    | error e => trivial
    | ok new => exact hcontent new rfl

theorem tells_of_record {files : List MigrationFile} {state new : Ledger.State}
    {content? : Option Text} (hdecode : Ledger.decodeFile ledger d'.content? = .ok state)
    (h : Rewrites ledger (.record files) (.ok new) d'.content? content?) :
    ∃ new, Tells state files .apply new ∧ content? = some new.encode := by
  change Ledger.Mutated ledger (.record files) d'.content? true content? at h
  cases h with
  | skipped hm => cases hm
  | wrote hdecode' hwrites =>
    cases hdecode.symm.trans hdecode'
    cases hwrites with
    | record appliedAt _ _ hutf8 => exact ⟨_, .apply appliedAt hutf8, rfl⟩

theorem tells_of_remove {files : List MigrationFile} (hne : files ≠ []) {state new : Ledger.State}
    {content? : Option Text} (hdecode : Ledger.decodeFile ledger d'.content? = .ok state)
    (h : Rewrites ledger (.remove (files.map (·.name))) (.ok new) d'.content? content?) :
    ∃ new, Tells state files .rollBack new ∧ content? = some new.encode := by
  change Ledger.Mutated ledger (.remove (files.map (·.name))) d'.content? true content? at h
  cases h with
  | skipped hm =>
    injection hm with hnil
    exact absurd (List.map_eq_nil_iff.mp hnil) hne
  | wrote hdecode' hwrites =>
    cases hdecode.symm.trans hdecode'
    cases hwrites with
    | remove => exact ⟨_, .rollBack, rfl⟩

theorem accompanies (dialect : Sql.Dialect) (ledger : Path) (read : List MigrationFile)
    (d : Docket) :
    Accompanies dialect (server ledger read)
      (Follows dialect ledger read d : Station direction → Docket → Prop) where
  admits _ _ := trivial
  serves := by
    rintro station r reply station' d₁ d₂ hstep hfollows ⟨hrewrites, hread, hworks⟩
    cases hstep with
    | message =>
      obtain rfl := eq_of_same hrewrites hworks
      exact hfollows
    | load =>
      obtain rfl := hfollows
      obtain rfl := eq_of_same hrewrites.1 hworks
      exact ⟨rfl, hrewrites.2 _ rfl⟩
    | loadFailed =>
      obtain rfl := hfollows
      obtain rfl := eq_of_same hrewrites.1 hworks
      exact ⟨rfl, rfl⟩
    | loadFiles =>
      obtain ⟨rfl, hdecode⟩ := hfollows
      obtain rfl := eq_of_same hrewrites hworks
      exact ⟨rfl, hdecode, hread _ rfl⟩
    | loadFilesFailed =>
      obtain ⟨rfl, _⟩ := hfollows
      obtain rfl := eq_of_same hrewrites hworks
      exact ⟨rfl, rfl⟩
    | probe plan =>
      -- The probe may write the ledger file anew, but not with another state.
      obtain ⟨rfl, hdecode, hread⟩ := hfollows
      exact ⟨hdecode, hread, ⟨[], rfl, hworks⟩,
        (Ledger.Restated.decodeFile_eq hrewrites).trans hdecode⟩
    | probeFailed =>
      obtain ⟨rfl, _⟩ := hfollows
      exact ⟨Ledger.Restated.decodeFile_eq hrewrites, hworks.trans (List.append_nil _)⟩
    | connect | connectFailed | transactionFailed | tell =>
      obtain rfl := eq_of_same hrewrites hworks
      exact hfollows.of_done_eq rfl rfl rfl
    | disconnect hleaves =>
      obtain rfl := eq_of_same hrewrites hworks
      cases hleaves with
      | failed | unreadable | finished => exact hfollows.of_done_eq rfl rfl rfl
    | transaction hsql =>
      obtain rfl := eq_commit hrewrites hworks
      exact hfollows.commit hsql
    | record =>
      refine hfollows.update hworks ?_
      rintro new rfl
      exact tells_of_record hfollows.content hrewrites
    | remove hne =>
      refine hfollows.update hworks ?_
      rintro new rfl
      exact tells_of_remove hne hfollows.content hrewrites

theorem settles_of_follows {results : Results α direction} {outcome : Except Failure α}
    {station : Station direction} (hfollows : Follows dialect ledger read d station d')
    (h : station.Ends results ledger outcome) :
    Settles dialect direction ledger read d outcome d' := by
  cases h with
  | halted => exact .stopped hfollows.1 hfollows.2
  | refused =>
    obtain ⟨rfl, _⟩ := hfollows
    exact .stopped rfl rfl
  | idle hprepare =>
    obtain ⟨rfl, hdecode, rfl⟩ := hfollows
    exact .idle hdecode (agenda_of_prepare hprepare)
  | stopped hnone =>
    obtain ⟨works, hdone, hworks⟩ := hfollows.works
    change List.mapM _ (Progress.committed _) = _ at hdone
    rw [hnone] at hdone
    cases hdone
    have hcontent : Ledger.decodeFile ledger d'.content? = _ := hfollows.content
    exact .stopped (hcontent.trans hfollows.decode.symm) (hworks.trans (List.append_nil _))
  | @told plan progress rest h hne new =>
    obtain ⟨works, hdone, hworks⟩ := hfollows.works
    obtain ⟨new', htells, hcontent⟩ := hfollows.content
    have hagenda := agenda_of_prepare plan.prepared
    rw [hfollows.read_eq, h.files_eq] at hagenda
    exact .treated hfollows.decode hagenda (h.isOk_iff _) hdone hworks htells hcontent
  | inconsistent => exact .inconsistent ⟨_, _, _, _, rfl⟩

theorem ensures_of_stations {results : Results α direction} {p : Program Access Failure α}
    (h : Ensures (Station.server dialect direction) p .start (Station.Ends results ledger)) :
    Ensures (server ledger read) p d (Settles dialect direction ledger read d) := by
  apply ((accompanies dialect ledger read d).ensures h rfl).mono
  rintro outcome d' ⟨station, hfollows, hends⟩
  exact settles_of_follows hfollows hends

theorem up_settles (dialect : Sql.Dialect) (ledger : Path) (read : List MigrationFile)
    (d : Docket) :
    Ensures (server ledger read) (up dialect ledger) d (Settles dialect .apply ledger read d) :=
  ensures_of_stations (Station.up_ends dialect ledger)

theorem down_settles (dialect : Sql.Dialect) (ledger : Path) (read : List MigrationFile)
    (d : Docket) :
    Ensures (server ledger read) (down dialect ledger) d
      (Settles dialect .rollBack ledger read d) :=
  ensures_of_stations (Station.down_ends dialect ledger)

end Docket

end Run

end SchemaMigration

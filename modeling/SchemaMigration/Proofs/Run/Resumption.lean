import SchemaMigration.Proofs.Run.Docket

/-!
This module contains that runs which are repeated until one succeeds come to the same end as a
single run without failures. What a run has committed before it stops is on the agenda of no later
run, and nothing that it has left undone is lost.
-/

namespace SchemaMigration

namespace World

def Listing.ofFiles (names : List Text) : Listing where
  entries := (Text.sortDistinct names).map (·, true)
  nodup := by
    rw [List.map_map, Function.comp_def, List.map_id']
    exact Text.nodup_of_sorted (Text.sortDistinct_sorted names)

/-- All succeeds but the transaction of some statements; a directory holds the files `read`. -/
def reluctant (read : List MigrationFile) (refused : List Text) :
    (r : Request) → Files → Reply r × Files
  | .list _, files => (.ok (.ofFiles (read.map (·.name))), files)
  | .transaction statements, files =>
    (if statements = refused then .error (ascii "refused") else .ok (), files)
  | r, files => obliging [] r files

theorem reluctant_serves (read : List MigrationFile) (refused : List Text) {mine : Path → Prop}
    (r : Request) (files : Files) :
    (server mine).Serves r files (reluctant read refused r files).1
      (reluctant read refused r files).2 := by
  cases r with
  | list path => exact ⟨files, fun _ _ => rfl, rfl⟩
  | transaction statements => exact ⟨files, fun _ _ => rfl, rfl⟩
  | _ => exact obliging_serves [] _ files

theorem exec_reluctant {ε α : Type} {p : Program World ε α} {read : List MigrationFile}
    {refused : List Text} {files : Files} {result : Except ε α × Files}
    (h : p.run (reluctant read refused) files = result) (mine : Path → Prop) :
    Program.Exec (server mine) p files result.1 result.2 := by
  subst h
  exact Program.Exec.run (reluctant_serves read refused) p files

end World

namespace Run

open Program (Ensures Exec)

structure Site where
  files : Files
  works : List Work

namespace Site

/--
The requests of a run, as they are served on the file system, where the migration files are always
`read`. Others may change all files but the ledger file and the temporary files beside it.
-/
def server (options : Options) (read : List MigrationFile) : Server Access Site where
  Admits _ _ := True
  Serves r s reply s' :=
    Exec (World.server (File.Owns options.ledger)) (serve options World.pause r) s.files
        (.ok reply) s'.files ∧
      (∀ files ∈ filesOfReply? r reply, files = read) ∧
      s'.works = s.works ++ Work.ofReply r reply

def docket (ledger : Path) (s : Site) : Docket := ⟨s.files ledger, s.works⟩

variable {α : Type}

/--
Runs a program where the transaction of some statements is refused. The last component says whether
the migration files that it read are `read`.
-/
def play (options : Options) (read : List MigrationFile) (refused : List Text) :
    Program Access Failure α → Site → Except Failure α × Site × Bool
  | .done a, s => (.ok a, s, true)
  | .fail e, s => (.error e, s, true)
  | .ask r next, s =>
    match (serve options World.pause r).run (World.reluctant read refused) s.files with
    | (.ok reply, files) =>
      let (outcome, s', asExpected) :=
        play options read refused (next reply) ⟨files, s.works ++ Work.ofReply r reply⟩
      (outcome, s', asExpected && decide (∀ found ∈ filesOfReply? r reply, found = read))
    | (.error e, _) => (.error e, s, false)

theorem exec_play {options : Options} {read : List MigrationFile} {refused : List Text}
    {p : Program Access Failure α} {s : Site} {result : Except Failure α × Site × Bool}
    (hplay : play options read refused p s = result) (h : result.2.2 = true) :
    Exec (server options read) p s result.1 result.2.1 := by
  subst hplay
  induction p generalizing s with
  | done a => exact .done a s
  | fail e => exact .fail e s
  | ask r next ih =>
    unfold play at h ⊢
    split at h
    . next reply files hrun =>
      obtain ⟨hnext, hread⟩ := Bool.and_eq_true_iff.mp h
      have hserve := World.exec_reluctant hrun (File.Owns options.ledger)
      exact .ask ⟨hserve, of_decide_eq_true hread, rfl⟩ (ih reply hnext)
    . cases h

end Site

/--
A run is repeated until it succeeds. It may fail in any way, except that no transaction gets lost to
the ledger.
-/
inductive Retried {α : Type} (ledger : Path) (read : List MigrationFile)
    (run : Program Access Failure α) : Site → Site → Prop
  | last {options : Options} {s s' : Site} {a : α} (hledger : options.ledger = ledger)
    (hexec : Exec (Site.server options read) run s (.ok a) s') : Retried ledger read run s s'
  | again {options : Options} {s s' s'' : Site} {e : Failure} (hledger : options.ledger = ledger)
    (hexec : Exec (Site.server options read) run s (.error e) s')
    (hconsistent : ¬ EndsInconsistent (.error e : Except Failure α))
    (hrest : Retried ledger read run s' s'') : Retried ledger read run s s''

variable {α : Type} {dialect : Sql.Dialect} {direction : Direction} {ledger : Path}
  {read : List MigrationFile} {run : Program Access Failure α}

namespace Docket

inductive Completes (dialect : Sql.Dialect) (direction : Direction) (ledger : Path)
    (read : List MigrationFile) (d d' : Docket) : Prop
  | intro {state : Ledger.State} {files : List MigrationFile} {works : List Work}
    (hdecode : Ledger.decodeFile ledger d.content? = .ok state)
    (hagenda : agenda read direction state = .ok files)
    (hfiles : files.mapM (Work.ofFile dialect direction) = .ok works)
    (hworks : d'.works = d.works ++ works)
    (hfulfilled : Fulfilled state files direction d'.content?)

variable {d d' d'' : Docket}

theorem Settles.completes {a : α}
    (h : Settles dialect direction ledger read d (.ok a : Except Failure α) d') :
    Completes dialect direction ledger read d d' := by
  cases h with
  | inconsistent h => exact absurd h (not_endsInconsistent rfl)
  | @idle _ state hdecode hagenda =>
    refine .intro hdecode hagenda rfl (List.append_nil _).symm ?_
    cases direction with
    | apply => simp [Fulfilled, Ledger.entries_of_decodeFile hdecode]
    | rollBack => exact fun hne => absurd rfl hne
  | treated hdecode hagenda hrest hdone hworks htells hcontent =>
    obtain rfl := hrest.mp rfl
    rw [List.append_nil] at hagenda
    refine .intro hdecode hagenda hdone hworks ?_
    rw [hcontent]
    exact htells.fulfilled (Ledger.valid_of_decodeFile hdecode)
      (Ledger.inRange_of_decodeFile hdecode) hagenda

theorem Settles.completes_of_rest {e : Failure}
    (h : Settles dialect direction ledger read d (.error e : Except Failure α) d')
    (hconsistent : ¬ EndsInconsistent (.error e : Except Failure α))
    (hrest : Completes dialect direction ledger read d' d'') :
    Completes dialect direction ledger read d d'' := by
  obtain ⟨hdecode', hagenda', hfiles', hworks', hfulfilled'⟩ := hrest
  cases h with
  | inconsistent h => exact absurd h hconsistent
  | stopped hcontent hworks =>
    rw [hcontent] at hdecode'
    rw [hworks] at hworks'
    exact .intro hdecode' hagenda' hfiles' hworks' hfulfilled'
  | treated hdecode hagenda hrest hdone hworks htells hcontent =>
    have hvalid := Ledger.valid_of_decodeFile hdecode
    have hne := mt hrest.mpr nofun
    -- The next run reads what this one wrote, and finds the rest of the agenda.
    rw [hcontent, Ledger.decodeFile_some, mapError_eq_ok] at hdecode'
    obtain rfl := Ledger.State.eq_of_decode_encode
      (htells.inRange (Ledger.inRange_of_decodeFile hdecode))
      (htells.utf8 (Ledger.utf8_of_decodeFile hdecode)) hdecode'
    cases (htells.agenda_eq_rest hvalid hagenda hne).symm.trans hagenda'
    refine .intro hdecode hagenda (mapM_append_ok hdone hfiles') ?_
      (htells.fulfilled_of_rest hvalid hagenda hne hfulfilled')
    rw [hworks', hworks, List.append_assoc]

theorem Completes.agree (h : Completes dialect direction ledger read d d')
    (h' : Completes dialect direction ledger read d d'') :
    d'.works = d''.works ∧ ∃ state files, Ledger.decodeFile ledger d.content? = .ok state ∧
      agenda read direction state = .ok files ∧ Fulfilled state files direction d'.content? ∧
      Fulfilled state files direction d''.content? := by
  obtain ⟨hdecode, hagenda, hfiles, hworks, hfulfilled⟩ := h
  obtain ⟨hdecode', hagenda', hfiles', hworks', hfulfilled'⟩ := h'
  cases hdecode.symm.trans hdecode'
  cases hagenda.symm.trans hagenda'
  cases hfiles.symm.trans hfiles'
  exact ⟨hworks.trans hworks'.symm, _, _, hdecode, hagenda, hfulfilled, hfulfilled'⟩

theorem Completes.applied_agree (h : Completes dialect .apply ledger read d d')
    (h' : Completes dialect .apply ledger read d d'') :
    d'.works = d''.works ∧ (Ledger.entries d'.content?).map (·.identity) =
      (Ledger.entries d''.content?).map (·.identity) := by
  obtain ⟨hworks, _, _, _, _, hfulfilled, hfulfilled'⟩ := h.agree h'
  exact ⟨hworks, hfulfilled.trans hfulfilled'.symm⟩

theorem Completes.rolledBack_agree (h : Completes dialect .rollBack ledger read d d')
    (h' : Completes dialect .rollBack ledger read d d'') {state : Ledger.State}
    (hdecode : Ledger.decodeFile ledger d.content? = .ok state) (hne : state.lastBatch ≠ []) :
    d'.works = d''.works ∧ d'.content? = d''.content? := by
  obtain ⟨hworks, _, _, hdecode', hagenda, hfulfilled, hfulfilled'⟩ := h.agree h'
  cases hdecode.symm.trans hdecode'
  have hfiles := ne_nil_of_mapM_ok hagenda hne
  exact ⟨hworks, (hfulfilled hfiles).trans (hfulfilled' hfiles).symm⟩

end Docket

theorem settles_of_exec {options : Options} {outcome : Except Failure α} {s s' : Site}
    (hrun : ∀ d, Ensures (Docket.server options.ledger read) run d
      (Docket.Settles dialect direction options.ledger read d))
    (hexec : Exec (Site.server options read) run s outcome s') :
    Docket.Settles dialect direction options.ledger read (s.docket options.ledger) outcome
      (s'.docket options.ledger) := by
  have hdocket : Exec (Docket.server options.ledger read) run (s.docket options.ledger) outcome
      (s'.docket options.ledger) := by
    apply hexec.map (Site.docket options.ledger)
    rintro r t reply t' ⟨hserve, hread, hworks⟩
    exact ⟨serve_rewrites hserve, hread, hworks⟩
  exact (hrun _).of_exec hdocket

theorem Retried.completes {s s' : Site} (h : Retried ledger read run s s')
    (hrun : ∀ d, Ensures (Docket.server ledger read) run d
      (Docket.Settles dialect direction ledger read d)) :
    Docket.Completes dialect direction ledger read (s.docket ledger) (s'.docket ledger) := by
  induction h with
  | last hledger hexec =>
    subst hledger
    exact (settles_of_exec hrun hexec).completes
  | again hledger hexec hconsistent _ ih =>
    subst hledger
    exact (settles_of_exec hrun hexec).completes_of_rest hconsistent ih

/--
A run is repeated until it succeeds. Rolling back in this way, the newest batch is rolled back, the
newest migration first, and nothing but that batch is removed from the ledger. Applying in this way,
each migration that is not recorded yet is applied once, in increasing order of the names, and the
ledger names them behind those that it named before. In both cases a single run that succeeds at
once commits the same transactions, and the ledger says the same behind it, up to the times and
batches of what was applied.
-/
theorem retried_same_as_uninterrupted (dialect : Sql.Dialect) (ledger : Path)
    (read : List MigrationFile) {s s' : Site} {state : Ledger.State}
    (hdecode : Ledger.decodeFile ledger (s.files ledger) = .ok state) :
    (state.lastBatch ≠ [] → Retried ledger read (down dialect ledger) s s' →
      (∃ files works, files ⊆ read ∧
        files.map (·.identity) = state.lastBatch.map (·.identity) ∧
        files.mapM (Work.ofFile dialect .rollBack) = .ok works ∧
        s'.works = s.works ++ works) ∧
      s'.files ledger = some (state.without (·.batch == state.currentBatch)).encode ∧
      ∀ (options : Options) (rolledBack : RolledBack) (single : Site), options.ledger = ledger →
        Exec (Site.server options read) (down dialect ledger) s (.ok rolledBack) single →
        s'.works = single.works ∧ s'.files ledger = single.files ledger) ∧
    (Retried ledger read (up dialect ledger) s s' →
      (∃ files works, files ⊆ read ∧ (files.map (·.name)).Pairwise (· < ·) ∧
        (∀ name, name ∈ files.map (·.name) ↔ name ∈ read.map (·.name) ∧ name ∉ state.files) ∧
        files.mapM (Work.ofFile dialect .apply) = .ok works ∧
        s'.works = s.works ++ works ∧
        (Ledger.entries (s'.files ledger)).map (·.identity) =
          state.entries.map (·.identity) ++ files.map (·.identity)) ∧
      ∀ (options : Options) (applied : Applied) (single : Site), options.ledger = ledger →
        Exec (Site.server options read) (up dialect ledger) s (.ok applied) single →
        s'.works = single.works ∧
          (Ledger.entries (s'.files ledger)).map (·.identity) =
            (Ledger.entries (single.files ledger)).map (·.identity)) := by
  constructor
  . intro hne hretried
    have hsettles := Docket.down_settles dialect ledger read
    obtain ⟨hdecode', hagenda, hfiles, hworks, hfulfilled⟩ := hretried.completes hsettles
    cases hdecode.symm.trans hdecode'
    refine ⟨⟨_, _, agenda_subset hagenda, (agenda_rollBack_eq_ok_iff.mp hagenda).1, hfiles,
      hworks⟩, hfulfilled (ne_nil_of_mapM_ok hagenda hne), ?_⟩
    intro options rolledBack single hledger hexec
    have hsingle := (Retried.last hledger hexec).completes hsettles
    exact (hretried.completes hsettles).rolledBack_agree hsingle hdecode hne
  . intro hretried
    have hsettles := Docket.up_settles dialect ledger read
    obtain ⟨hdecode', hagenda, hfiles, hworks, hfulfilled⟩ := hretried.completes hsettles
    cases hdecode.symm.trans hdecode'
    have hnames := (agenda_apply_eq_ok_iff.mp hagenda).1
    refine ⟨⟨_, _, agenda_subset hagenda, ?_, ?_, hfiles, hworks, hfulfilled⟩, ?_⟩
    . rw [hnames]
      exact state.pending_sorted _
    . intro name
      rw [hnames]
      exact Ledger.State.mem_pending
    . intro options applied single hledger hexec
      have hsingle := (Retried.last hledger hexec).completes hsettles
      exact (hretried.completes hsettles).applied_agree hsingle

theorem Retried.last_of_isOk {options : Options} {s s' : Site} {outcome : Except Failure α}
    (hledger : options.ledger = ledger) (hexec : Exec (Site.server options read) run s outcome s')
    (hok : outcome.isOk) : Retried ledger read run s s' := by
  cases outcome with
  | ok a => exact .last hledger hexec
  | error e => cases hok

theorem Retried.again_of_kind {options : Options} {s s' s'' : Site} {outcome : Except Failure α}
    (hledger : options.ledger = ledger) (hexec : Exec (Site.server options read) run s outcome s')
    (hkind : outcome.mapError (·.kind) = .error .database)
    (hrest : Retried ledger read run s' s'') : Retried ledger read run s s'' := by
  cases outcome with
  | ok a => cases hkind
  | error e =>
    refine .again hledger hexec ?_ hrest
    rintro ⟨_, _, _, _, ⟨⟩⟩
    cases hkind

/--
Two migrations are applied, in two batches since the second transaction is refused at first, and in
one batch where it is not. Then that batch is rolled back, and the second transaction is refused at
first as well.
-/
theorem retried_same_as_uninterrupted_two_files :
    let ledger : Path := ascii "ledger.json"
    let one : MigrationFile := ⟨ascii "1.sigl", ascii "model A \x7b id Int\n\x7d"⟩
    let two : MigrationFile := ⟨ascii "2.sigl", ascii "model B \x7b id Int\n\x7d"⟩
    let files : Files := fun path =>
      if path = ascii "m/1.sigl" then some one.content
      else if path = ascii "m/2.sigl" then some two.content else none
    let createA := ascii "CREATE TABLE \"A\" (\n  \"id\" INTEGER\n);"
    let createB := ascii "CREATE TABLE \"B\" (\n  \"id\" INTEGER\n);"
    let dropA := ascii "DROP TABLE IF EXISTS \"A\";"
    let dropB := ascii "DROP TABLE IF EXISTS \"B\";"
    let applied : List Work := [⟨.apply, one.name, [createA]⟩, ⟨.apply, two.name, [createB]⟩]
    ∃ (resumed single undone : Site),
      Retried ledger [one, two] (up .sqlite ledger) ⟨files, []⟩ resumed ∧
      (Ledger.entries (resumed.files ledger)).map (·.batch) = [1, 2] ∧
      (Ledger.entries (single.files ledger)).map (·.batch) = [1, 1] ∧
      resumed.works = applied ∧ single.works = applied ∧
      (Ledger.entries (resumed.files ledger)).map (·.identity) =
        (Ledger.entries (single.files ledger)).map (·.identity) ∧
      Retried ledger [one, two] (down .sqlite ledger) single undone ∧
      undone.works = applied ++ [⟨.rollBack, two.name, [dropB]⟩, ⟨.rollBack, one.name, [dropA]⟩] ∧
      undone.files ledger = some (Ledger.State.encode ⟨[], 0⟩) := by
  intro ledger one two files createA createB dropA dropB applied
  let options : Options := ⟨ascii "m", ledger, ⟨false, 0, 0⟩, ⟨0, 0⟩, ⟨1, 0⟩⟩
  let state : Ledger.State := Ledger.State.empty.withBatch [one, two] (Moment.iso8601 ⟨0⟩)
  obtain ⟨stopped, resumed, single, interrupted, undone, hplay₁, hplay₂, hplay₃, hplay₄, hplay₅,
      ⟨hstopped, hread₁, hresumed, hread₂, hbatches, hworks⟩,
      ⟨hok, hread₃, hbatches', hdecode⟩, hinterrupted, hread₄, hundone, hread₅, hworks'⟩ :
      ∃ (stopped resumed single : Except Failure Applied × Site × Bool)
        (interrupted undone : Except Failure RolledBack × Site × Bool),
        Site.play options [one, two] [createB] (up .sqlite ledger) ⟨files, []⟩ = stopped ∧
        Site.play options [one, two] [] (up .sqlite ledger) stopped.2.1 = resumed ∧
        Site.play options [one, two] [] (up .sqlite ledger) ⟨files, []⟩ = single ∧
        Site.play options [one, two] [dropA] (down .sqlite ledger) single.2.1 = interrupted ∧
        Site.play options [one, two] [] (down .sqlite ledger) interrupted.2.1 = undone ∧
        (stopped.1.mapError (·.kind) = .error .database ∧ stopped.2.2 ∧ resumed.1.isOk ∧
          resumed.2.2 ∧ (Ledger.entries (resumed.2.1.files ledger)).map (·.batch) = [1, 2] ∧
          resumed.2.1.works = applied) ∧
        (single.1.isOk ∧ single.2.2 ∧
          (Ledger.entries (single.2.1.files ledger)).map (·.batch) = [1, 1] ∧
          (Ledger.decodeFile ledger (single.2.1.files ledger)).mapError (·.kind) = .ok state) ∧
        interrupted.1.mapError (·.kind) = .error .database ∧ interrupted.2.2 ∧
        undone.1.isOk ∧ undone.2.2 ∧ undone.2.1.works =
          applied ++ [⟨.rollBack, two.name, [dropB]⟩, ⟨.rollBack, one.name, [dropA]⟩] :=
    ⟨_, _, _, _, _, rfl, rfl, rfl, rfl, rfl, by decide +kernel⟩
  have hsingle := Site.exec_play hplay₃ hread₃
  have hups : Retried ledger [one, two] (up .sqlite ledger) ⟨files, []⟩ resumed.2.1 :=
    .again_of_kind rfl (Site.exec_play hplay₁ hread₁) hstopped
      (.last_of_isOk rfl (Site.exec_play hplay₂ hread₂) hresumed)
  have hdowns : Retried ledger [one, two] (down .sqlite ledger) single.2.1 undone.2.1 :=
    .again_of_kind rfl (Site.exec_play hplay₄ hread₄) hinterrupted
      (.last_of_isOk rfl (Site.exec_play hplay₅ hread₅) hundone)
  have hfresh : Ledger.decodeFile ledger (files ledger) = .ok .empty := rfl
  obtain ⟨_, hsame⟩ := (retried_same_as_uninterrupted .sqlite ledger [one, two] hfresh).2 hups
  have hbatch : state.lastBatch ≠ [] := by decide +kernel
  obtain ⟨_, hcontent, _⟩ := (retried_same_as_uninterrupted .sqlite ledger [one, two]
    (mapError_eq_ok.mp hdecode)).1 hbatch hdowns
  have hempty : state.without (·.batch == state.currentBatch) = ⟨[], 0⟩ := by decide +kernel
  rw [hempty] at hcontent
  cases houtcome : single.1 with
  | error e =>
    rw [houtcome] at hok
    cases hok
  | ok a =>
    rw [houtcome] at hsingle
    obtain ⟨hworks'', hidentities⟩ := hsame options a single.2.1 rfl hsingle
    exact ⟨resumed.2.1, single.2.1, undone.2.1, hups, hbatches, hbatches', hworks,
      hworks''.symm.trans hworks, hidentities, hdowns, hworks', hcontent⟩

end Run

end SchemaMigration

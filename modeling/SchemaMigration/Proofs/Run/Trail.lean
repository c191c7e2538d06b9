import Mathlib.Data.List.Perm.Basic
import SchemaMigration.Proofs.Run.Resumption
import SchemaMigration.Proofs.Run.Tally

/-!
This module contains that the audit trail of a run is complete and truthful. It tells of the
migrations that were committed, of the entries that were added to the ledger and of those that were
removed from it, in order, and of nothing else. Unless a run reports an inconsistency, what it has
committed is what it has told the ledger.
-/

namespace SchemaMigration

namespace Ledger

def beyond (others entries : List Entry) : List Entry := entries.filter (!others.contains ·)

theorem beyond_eq_nil {others entries : List Entry} (h : entries ⊆ others) :
    beyond others entries = [] := by
  apply List.filter_eq_nil_iff.mpr
  intro e he
  simp [h he]

theorem beyond_append {entries added : List Entry} (h : ∀ e ∈ added, e ∉ entries) :
    beyond entries (entries ++ added) = added := by
  have hadded : added.filter (!entries.contains ·) = added := by
    apply List.filter_eq_self.mpr
    intro e he
    simp [h e he]
  rw [beyond, List.filter_append, hadded]
  exact congrArg (· ++ added) (beyond_eq_nil (List.Subset.refl entries))

theorem beyond_filter (keep : Entry → Bool) (entries : List Entry) :
    beyond (entries.filter keep) entries = entries.filter (!keep ·) := by
  apply List.filter_congr
  intro e he
  simp [List.contains_eq_mem, List.mem_filter, he]

end Ledger

namespace Run

open Program (Ensures Exec Within)

/-- The part of a list without repetitions that is in a sublist is the sublist. -/
theorem filter_contains_of_sublist {ts us : List Text} (h : ts.Sublist us) (hnodup : us.Nodup) :
    us.filter (ts.contains ·) = ts := by
  apply (hnodup.perm_iff_eq_of_sublist List.filter_sublist h).mp
  apply (List.perm_ext_iff_of_nodup (hnodup.filter _) (h.nodup hnodup)).mpr
  intro t
  rw [List.mem_filter, List.contains_iff_mem]
  exact ⟨And.right, fun ht => ⟨h.subset ht, ht⟩⟩

structure Truthful (dialect : Sql.Dialect) (direction : Direction)
    (before after : List Ledger.Entry) (history : History) (records : List Log.Record) :
    Prop where
  directed : ∀ commit ∈ history, commit.direction = direction
  executed : List.Forall₂
    (fun commit text => ∃ number, text = toldTreated dialect direction commit.file number)
    history (Log.actions direction.action records)
  alone : ∀ other ≠ direction, Log.actions other.action records = []
  recorded : Log.actions (ascii "ledger.record") records =
    (Ledger.beyond before after).map fun e => Ledger.toldRecorded e.batch e.file
  removed : Log.actions (ascii "ledger.remove") records =
    (Ledger.beyond after before).map fun e => Ledger.toldRemoved e.file

variable {α : Type} {dialect : Sql.Dialect} {direction : Direction} {entries : List Ledger.Entry}
  {history : History}

theorem Truthful.of_trail {before after : List Ledger.Entry} {records : List Log.Record}
    (h : Truthful dialect direction before after history (Log.trail records)) :
    Truthful dialect direction before after history records := by
  have haction : ∀ other : Direction,
      Log.actions other.action (Log.trail records) = Log.actions other.action records :=
    fun other => Log.actions_trail (other.action_apart (by decide)) records
  constructor
  . exact h.directed
  . rw [← haction]
    exact h.executed
  . intro other hother
    rw [← haction]
    exact h.alone other hother
  . rw [← Log.actions_trail (by decide)]
    exact h.recorded
  . rw [← Log.actions_trail (by decide)]
    exact h.removed

namespace Tally

variable {done : List MigrationFile} {records : List Log.Record} {t : Tally}

theorem actions_of_notes (h : List.Forall₂ (Notes dialect direction) done records) :
    List.Forall₂ (fun file text => ∃ number, text = toldTreated dialect direction file.name number)
      done (Log.actions direction.action records) := by
  induction h with
  | nil => exact .nil
  | @cons file r done records hnotes _ ih =>
    obtain ⟨number, rfl⟩ := hnotes
    change List.Forall₂ _ _ (Log.actions _ ([_] ++ records))
    rw [Log.actions_append, Log.actions_singleton (r := ⟨_, _⟩) rfl]
    exact .cons ⟨number, rfl⟩ ih

theorem actions_of_notes_of_apart {action : Text}
    (hapart : Log.Apart (Log.actionMark action) (Log.actionMark direction.action))
    (h : List.Forall₂ (Notes dialect direction) done records) :
    Log.actions action records = [] := by
  induction h with
  | nil => rfl
  | @cons file r done records hnotes _ ih =>
    obtain ⟨number, rfl⟩ := hnotes
    change Log.actions _ ([_] ++ records) = _
    rw [Log.actions_append, ih, Log.actions_singleton_of_apart (r := ⟨_, _⟩) rfl hapart]
    rfl

/-- The records tell of files that were treated, and then of what the ledger was told of them. -/
theorem Treated.truthful (h : Treated dialect direction entries done done t)
    (after : List Ledger.Entry) :
    Truthful dialect direction entries after t.history
      (t.records ++
        (Ledger.beyond entries after).map (fun e => Ledger.recordedRecord e.batch e.file) ++
        (Ledger.beyond after entries).map fun e => Ledger.removedRecord e.file) := by
  have hrecord : Log.Apart _ (Log.actionMark (ascii "ledger.record")) :=
    direction.action_apart (by decide)
  have hremove : Log.Apart _ (Log.actionMark (ascii "ledger.remove")) :=
    direction.action_apart (by decide)
  have hmigrations : ∀ other : Direction, Log.actions other.action
      (t.records ++
        (Ledger.beyond entries after).map (fun e => Ledger.recordedRecord e.batch e.file) ++
        (Ledger.beyond after entries).map fun e => Ledger.removedRecord e.file) =
      Log.actions other.action t.records := by
    intro other
    rw [Log.actions_append, Log.actions_append,
      Log.actions_map_of_apart (fun _ => rfl) (other.action_apart (by decide)),
      Log.actions_map_of_apart (fun _ => rfl) (other.action_apart (by decide)), List.append_nil,
      List.append_nil]
  constructor
  . rw [h.history, List.forall_mem_map]
    exact fun _ _ => rfl
  . rw [hmigrations, h.history, List.forall₂_map_left_iff]
    exact actions_of_notes h.records
  . intro other hother
    rw [hmigrations]
    exact actions_of_notes_of_apart (Direction.action_apart_of_ne hother) h.records
  . have hrecorded : Log.actions (ascii "ledger.record") ((Ledger.beyond entries after).map
        fun e => Ledger.recordedRecord e.batch e.file) = _ := Log.actions_map (fun _ => rfl) _
    have hremoved : Log.actions (ascii "ledger.record") ((Ledger.beyond after entries).map
        fun e => Ledger.removedRecord e.file) = [] :=
      Log.actions_map_of_apart (fun _ => rfl) (by decide) _
    rw [Log.actions_append, Log.actions_append, hrecorded, hremoved,
      actions_of_notes_of_apart ⟨hrecord.2, hrecord.1⟩ h.records, List.append_nil, List.nil_append]
  . have hrecorded : Log.actions (ascii "ledger.remove") ((Ledger.beyond entries after).map
        fun e => Ledger.recordedRecord e.batch e.file) = [] :=
      Log.actions_map_of_apart (fun _ => rfl) (by decide) _
    have hremoved : Log.actions (ascii "ledger.remove") ((Ledger.beyond after entries).map
        fun e => Ledger.removedRecord e.file) = _ := Log.actions_map (fun _ => rfl) _
    rw [Log.actions_append, Log.actions_append, hrecorded, hremoved,
      actions_of_notes_of_apart ⟨hremove.2, hremove.1⟩ h.records, List.append_nil, List.nil_append]

theorem beyond_record (hfresh : Fresh id (entries.map (·.file)) (done.map (·.name)))
    (appliedAt : Text) (batch : Int) :
    Ledger.beyond entries
        (entries ++ done.map fun f => ⟨f.name, f.hash, appliedAt, batch⟩) =
      done.map fun f => ⟨f.name, f.hash, appliedAt, batch⟩ := by
  apply Ledger.beyond_append
  rw [List.forall_mem_map]
  intro file hfile hold
  exact hfresh.unseen file.name (List.mem_map_of_mem hfile) (List.mem_map_of_mem hold)

/-- What the records tell behind a run is what the run has done. -/
theorem Concludes.truthful {outcome : Except Failure α}
    (h : Concludes dialect entries direction outcome t) :
    Truthful dialect direction entries t.entries t.history t.records := by
  cases h with
  | untold h hnone =>
    have htruthful := h.truthful entries
    rw [Ledger.beyond_eq_nil (List.Subset.refl _), List.map_nil, List.map_nil, List.append_nil,
      List.append_nil] at htruthful
    rw [h.entries]
    exact htruthful
  | @recorded _ done t h appliedAt batch hfresh =>
    have htruthful := h.truthful (entries ++ done.map fun f => ⟨f.name, f.hash, appliedAt, batch⟩)
    rw [beyond_record hfresh, Ledger.beyond_eq_nil (List.subset_append_left _ _), List.map_nil,
      List.append_nil, List.map_map] at htruthful
    unfold record
    rw [h.entries]
    exact htruthful
  | @removed _ done t h hdone hnodup =>
    have htruthful := h.truthful (entries.filter (!(done.map (·.name)).contains ·.file))
    rw [Ledger.beyond_eq_nil (List.filter_subset_self _), List.map_nil, List.append_nil,
      Ledger.beyond_filter] at htruthful
    simp only [Bool.not_not] at htruthful
    unfold remove
    rw [h.entries, List.map_map]
    exact htruthful

/-- The files of the entries that were added or removed, in the order in which a run treats them. -/
def changed (before after : List Ledger.Entry) : Direction → List Text
  | .apply => (Ledger.beyond before after).map (·.file)
  | .rollBack => ((Ledger.beyond after before).map (·.file)).reverse

/-- Unless a run reports an inconsistency, it has told the ledger what it has committed. -/
theorem Concludes.files_eq {outcome : Except Failure α}
    (h : Concludes dialect entries direction outcome t)
    (hconsistent : ¬ EndsInconsistent outcome) :
    t.history.map (·.file) = changed entries t.entries direction := by
  cases h with
  | untold h hnone =>
    obtain rfl := hnone.resolve_right hconsistent
    unfold changed
    rw [h.history, h.entries, Ledger.beyond_eq_nil (List.Subset.refl _)]
    cases direction with
    | apply => rfl
    | rollBack => rfl
  | @recorded _ done t h appliedAt batch hfresh =>
    change t.history.map _ = (Ledger.beyond entries (t.entries ++ _)).map _
    rw [h.history, h.entries, beyond_record hfresh, List.map_map, List.map_map]
    rfl
  | @removed _ done t h hdone hnodup =>
    -- What was committed stands in the ledger in reverse, and nothing else is among it.
    have hfilter := filter_contains_of_sublist hdone hnodup
    simp only [List.contains_reverse] at hfilter
    change t.history.map _ = ((Ledger.beyond (t.entries.filter _) entries).map _).reverse
    rw [h.history, h.entries, Ledger.beyond_filter]
    simp only [Bool.not_not]
    rw [List.filter_map] at hfilter
    rw [← List.reverse_eq_iff, List.map_map]
    exact hfilter.symm

def ofSheet (s : Ledger.Sheet) (history : History) : Tally :=
  ⟨Ledger.entries s.content?, s.records, history⟩

section Amended

variable {ledger : Path} {s s' : Ledger.Sheet} {outcome : Except Failure Ledger}

theorem record_of_amended
    (h : Ledger.Sheet.Amended ledger (.record done) (Ledger.Sheet.tellsRecord done) s outcome s')
    (history : History) :
    server.Serves (.record done) (ofSheet s history) (outcome.map (·.state))
      (ofSheet s' history) := by
  cases h with
  | failed e => rfl
  | skipped l hm => cases hm
  | @wrote l old hdecode hwrites =>
    have hentries := Ledger.entries_written hdecode (.mutate hwrites)
    have hold := Ledger.entries_of_decodeFile hdecode
    have htrail : Log.trail (Ledger.Sheet.tellsRecord done old l.state) =
        Ledger.Sheet.tellsRecord done old l.state := Log.trail_map (fun _ => rfl) (by decide) _
    change ∃ appliedAt, Fresh id ((Ledger.entries s.content?).map _) _ ∧
      Tally.mk (Ledger.entries (some _)) (s.records ++ Log.trail _) _ =
        Tally.mk (Ledger.entries s.content? ++ done.map fun f =>
            ⟨f.name, f.hash, appliedAt, l.state.currentBatch⟩)
          (s.records ++ Ledger.Sheet.tellsRecord done old l.state) _
    rw [hentries, htrail, hold]
    generalize l.state = new at hwrites
    cases hwrites with
    | record appliedAt hne hfresh => exact ⟨appliedAt, hfresh, rfl⟩

theorem remove_of_amended {names : List Text}
    (h : Ledger.Sheet.Amended ledger (.remove names) (Ledger.Sheet.tellsRemove names) s outcome s')
    (history : History) :
    server.Serves (.remove names) (ofSheet s history) (outcome.map (·.state))
      (ofSheet s' history) := by
  cases h with
  | failed e => rfl
  | skipped l hm =>
    cases hm
    change ofSheet s history = Tally.mk ((Ledger.entries s.content?).filter fun _ => true)
      (s.records ++ (((Ledger.entries s.content?).filter fun _ => false).map _).map _) _
    rw [List.filter_true, List.filter_false, List.map_nil, List.map_nil, List.append_nil]
    rfl
  | @wrote l old hdecode hwrites =>
    have hentries := Ledger.entries_of_remove hdecode hwrites
    have htrail : Log.trail (Ledger.Sheet.tellsRemove names old l.state) =
        Ledger.Sheet.tellsRemove names old l.state := Log.trail_map (fun _ => rfl) (by decide) _
    change Tally.mk (Ledger.entries (some _)) (s.records ++ Log.trail _) _ = _
    rw [hentries, htrail]
    unfold ofSheet remove Ledger.Sheet.tellsRemove
    rw [Ledger.entries_of_decodeFile hdecode]

end Amended

end Tally

def Changes : Request → Prop
  | .record _ | .remove _ => True
  | _ => False

structure Trail extends Ledger.Scroll where
  history : History

namespace Trail

/--
The requests of a run, as they are served on the file system. Others may change all files but the
ledger file and the temporary files beside it. Once a change has replaced the ledger file, its
directory can be forced to disk, so that a write of a change that fails has had no effect.
-/
def server (options : Options) (filter : Log.Filter) : Server Access Trail where
  Admits _ _ := True
  Serves r t reply t' :=
    Exec (Ledger.Scroll.server options.ledger filter (Changes r)) (serve options World.pause r)
        t.toScroll (.ok reply) t'.toScroll ∧
      t'.history = t.history ++ commits r reply

def start (files : Files) : Trail := ⟨⟨files, []⟩, []⟩

def tally (t : Trail) (ledger : Path) : Tally := .ofSheet (t.sheet ledger) t.history

variable {options : Options} {filter : Log.Filter} {t t' : Trail}

theorem tally_eq {ledger : Path}
    (hentries : Ledger.entries (t'.files ledger) = Ledger.entries (t.files ledger))
    (hrecords : Log.trail t'.records = Log.trail t.records)
    (hhistory : t'.history = t.history ++ []) : t'.tally ledger = t.tally ledger := by
  change Tally.mk (Ledger.entries (t'.files ledger)) (Log.trail t'.records) _ = _
  rw [hentries, hrecords, hhistory, List.append_nil]
  rfl

theorem discreet_of_reads {r : World.Request} (h : World.Reads r) : Ledger.Scroll.Discreet r := by
  cases r with
  | log => cases h
  | _ => exact nofun

theorem discreet_of_connects {r : World.Request} (h : Connection.Makes r) :
    Ledger.Scroll.Discreet r := by
  cases r with
  | log entry => exact Ledger.Scroll.discreet_of_aside h
  | _ => exact nofun

def keeping (filter : Log.Filter) (serve : (r : World.Request) → Files → World.Reply r × Files)
    (r : World.Request) (s : Ledger.Scroll) : World.Reply r × Ledger.Scroll :=
  ((serve r s.files).1,
    ⟨(serve r s.files).2, s.records ++ (Ledger.Scroll.logged r).filterMap filter.record?⟩)

theorem reluctant_lasts (read : List MigrationFile) (refused : List Text) (r : World.Request)
    (files : Files) : File.Lasts r (World.reluctant read refused r files).1 := by
  cases r with
  | openDirectory | syncDirectory => rfl
  | _ => trivial

/-- What a run does where a transaction may be refused, and all else succeeds. -/
theorem exists_exec_reluctant {read : List MigrationFile} {refused : List Text}
    {run : Program Access Failure α} {files : Files} {result : Except Failure α × Ledger.Scroll}
    (h : (perform options World.pause run).run (keeping filter (World.reluctant read refused))
      ⟨files, []⟩ = result) :
    ∃ history, Exec (server options filter) run (start files) result.1 ⟨result.2, history⟩ := by
  subst h
  have hkeeping : ∀ r s, (Ledger.Scroll.server options.ledger filter True).Serves r s
      (keeping filter (World.reluctant read refused) r s).1
      (keeping filter (World.reluctant read refused) r s).2 :=
    fun r s => ⟨World.reluctant_serves read refused r s.files, rfl,
      fun _ => reluctant_lasts read refused r s.files⟩
  have hperform := Exec.run hkeeping (perform options World.pause run) ⟨files, []⟩
  refine exists_exec_of_perform Trail.mk (fun r s reply s' history hserve => ?_) hperform []
  refine ⟨history ++ commits r reply, hserve.map id fun _ _ _ _ hserves => ?_, rfl⟩
  exact ⟨hserves.1, hserves.2.1, fun _ => hserves.2.2 trivial⟩

def Tells : Request → Prop
  | .record _ | .remove _ | .log _ => True
  | _ => False

variable (hfilter : ∀ action fields,
  filter.record? (.audit action fields) = some (Log.Entry.audit action fields).record)
include hfilter

theorem trail_serve {r : Request} {reply : Reply r} {lasting : Prop} {s s' : Ledger.Scroll}
    (h : Exec (Ledger.Scroll.server options.ledger filter lasting) (serve options World.pause r) s
      (.ok reply) s') (hr : ¬ Tells r) :
    Log.trail s'.records = Log.trail s.records := by
  have hquiet : Within Ledger.Scroll.Discreet (serve options World.pause r) →
      Log.trail s'.records = Log.trail s.records := (Ledger.Scroll.trail_of_discreet · h)
  cases r with
  | record | remove | log => exact absurd trivial hr
  | load =>
    obtain ⟨_, _, htrail⟩ := (Ledger.Scroll.onDisk_sheet hfilter
      (ensures_state (Ledger.Sheet.load_ensures _ _)) options.lock).of_exec h.of_attempt
    exact htrail
  | probe =>
    exact (Ledger.Scroll.onDisk_sheet hfilter (Ledger.Sheet.probe_ensures _ _)
      options.lock).of_exec h.of_attempt
  | listFiles =>
    have hreads := (Migration.listFiles_reads options.migrations).attempt
    exact hquiet (Within.mono (fun _ => discreet_of_reads) hreads)
  | loadFiles =>
    have hreads := (Migration.loadFiles_reads options.migrations options.limits).attempt
    exact hquiet (Within.mono (fun _ => discreet_of_reads) hreads)
  | connect =>
    exact hquiet (Within.mono (fun _ => discreet_of_connects)
      (Connection.connectFrom_makes _ _ _).attempt)
  | transaction | disconnect =>
    exact hquiet (Within.bind (Within.call nofun) fun _ => Within.pure _)

theorem tally_serves {r : Request} {reply : Reply r}
    (h : (server options filter).Serves r t reply t') :
    Tally.server.Serves r (t.tally options.ledger) reply (t'.tally options.ledger) := by
  obtain ⟨hexec, hhistory⟩ := h
  have halters := serve_alters (Ledger.Scroll.exec_files hexec)
  cases r with
  | load =>
    refine ⟨tally_eq halters.1 (trail_serve hfilter hexec id) hhistory, halters.2⟩
  | record files =>
    obtain ⟨outcome, rfl, hamended⟩ := (Ledger.Scroll.onDisk_sheet hfilter
      (ensures_state (Ledger.Sheet.record_ensures (.new options.ledger) files _))
      options.lock).of_exec hexec.of_attempt
    change Tally.server.Serves _ _ _ (Tally.ofSheet _ t'.history)
    rw [hhistory.trans (List.append_nil _)]
    exact Tally.record_of_amended hamended t.history
  | remove files =>
    obtain ⟨outcome, rfl, hamended⟩ := (Ledger.Scroll.onDisk_sheet hfilter
      (ensures_state (Ledger.Sheet.remove_ensures (.new options.ledger) files _))
      options.lock).of_exec hexec.of_attempt
    change Tally.server.Serves _ _ _ (Tally.ofSheet _ t'.history)
    rw [hhistory.trans (List.append_nil _)]
    exact Tally.remove_of_amended hamended t.history
  | transaction direction file statements =>
    have hrecords := trail_serve hfilter hexec id
    cases reply with
    | error e => exact tally_eq halters hrecords hhistory
    | ok _ =>
      change Tally.mk (Ledger.entries (t'.files _)) (Log.trail t'.records) _ = _
      rw [halters, hrecords, hhistory]
      rfl
  | log entry =>
    cases hexec with
    | ask hlogged hdone =>
      cases hdone
      refine ⟨_, Log.Filter.mayWrite hfilter entry, ?_⟩
      change Tally.mk (Ledger.entries (t'.files _)) (Log.trail t'.records) _ = _
      rw [halters, hlogged.2.1, Log.trail_append, hhistory.trans (List.append_nil _)]
      rfl
  | _ => exact tally_eq halters (trail_serve hfilter hexec id) hhistory

theorem concludes_of_exec {p : Program Access Failure α} {files : Files}
    {outcome : Except Failure α} (hexec : Exec (server options filter) p (start files) outcome t)
    (h : Ensures Tally.server p ⟨Ledger.entries (files options.ledger), [], []⟩
      (Tally.Concludes dialect (Ledger.entries (files options.ledger)) direction)) :
    Tally.Concludes dialect (Ledger.entries (files options.ledger)) direction outcome
      (t.tally options.ledger) :=
  h.of_exec (hexec.map (·.tally options.ledger) fun _ _ _ _ => tally_serves hfilter)

end Trail

/--
The audit trail of a run is complete and truthful. With the audit trail on, a sink and a level that
lets it through, the records that are written tell of the migrations that the run has committed, of
the entries that it has added to the ledger and of those that it has removed, in order. Unless the
run ends in an inconsistency, the migrations that were applied are those that were added, and those
that were rolled back are those that were removed, in reverse.
-/
theorem audit_trail_is_truthful {filter : Log.Filter} (haudit : filter.audit = true)
    (hsink : filter.sink = true) (hlevel : filter.threshold.rank ≤ Log.Level.info.rank)
    (options : Options) (dialect : Sql.Dialect) (files : Files) :
    let before := Ledger.entries (files options.ledger)
    (∀ outcome t,
      Exec (Trail.server options filter) (up dialect options.ledger) (.start files) outcome t →
        let after := Ledger.entries (t.files options.ledger)
        Truthful dialect .apply before after t.history t.records ∧
          (¬ EndsInconsistent outcome →
            t.history.map (·.file) = (Ledger.beyond before after).map (·.file))) ∧
      ∀ outcome t,
        Exec (Trail.server options filter) (down dialect options.ledger) (.start files) outcome t →
          let after := Ledger.entries (t.files options.ledger)
          Truthful dialect .rollBack before after t.history t.records ∧
            (¬ EndsInconsistent outcome →
              t.history.map (·.file) = ((Ledger.beyond after before).map (·.file)).reverse) := by
  intro before
  have hfilter := Log.Filter.record?_audit haudit hsink hlevel
  constructor
  . intro outcome t hexec
    have hconcludes := Trail.concludes_of_exec hfilter hexec
      (Tally.ensures_of_stations (Station.up_ends dialect _))
    exact ⟨hconcludes.truthful.of_trail, hconcludes.files_eq⟩
  . intro outcome t hexec
    have hconcludes := Trail.concludes_of_exec hfilter hexec
      (Tally.ensures_of_stations (Station.down_ends dialect _))
    exact ⟨hconcludes.truthful.of_trail, hconcludes.files_eq⟩

/--
Two migrations are applied before a third one is refused, and then rolled back, the second one
first. The ledger is told in the order of its entries both times.
-/
theorem audit_trail_of_refused_migration :
    let ledger : Path := ascii "ledger.json"
    let one : MigrationFile := ⟨ascii "1.sigl", ascii "model A { id Int
}"⟩
    let two : MigrationFile := ⟨ascii "2.sigl", ascii "model B { id Int
}"⟩
    let three : MigrationFile := ⟨ascii "3.sigl", ascii "model C { id Int
}"⟩
    let files : Files := fun path =>
      if path = ascii "m/1.sigl" then some one.content
      else if path = ascii "m/2.sigl" then some two.content
      else if path = ascii "m/3.sigl" then some three.content else none
    let options : Options := ⟨ascii "m", ledger, ⟨false, 0, 0⟩, ⟨0, 0⟩, ⟨1, 0⟩⟩
    let filter : Log.Filter := ⟨.info, true, true⟩
    ∃ (stopped : Except Failure Applied) (t : Trail) (undone : Except Failure RolledBack)
      (t' : Trail),
      Exec (Trail.server options filter) (up .sqlite ledger) (.start files) stopped t ∧
      stopped.isOk = false ∧
      t.history.map (·.file) = [one.name, two.name] ∧
      Log.actions (ascii "ledger.record") t.records =
        [ascii "filename=1.sigl batch=1", ascii "filename=2.sigl batch=1"] ∧
      Exec (Trail.server options filter) (down .sqlite ledger) (.start t.files) undone t' ∧
      t'.history.map (·.file) = [two.name, one.name] ∧
      Log.actions (ascii "ledger.remove") t'.records =
        [ascii "filename=1.sigl", ascii "filename=2.sigl"] := by
  intro ledger one two three files options filter
  let createC := ascii "CREATE TABLE \"C\" (\n  \"id\" INTEGER\n);"
  let world := Trail.keeping filter (World.reluctant [one, two, three] [createC])
  obtain ⟨stopped, undone, hstopped, hundone, hfailed, hkind, hadded, hok, hremoved⟩ :
      ∃ (stopped : Except Failure Applied × Ledger.Scroll)
        (undone : Except Failure RolledBack × Ledger.Scroll),
        (perform options World.pause (up .sqlite ledger)).run world ⟨files, []⟩ = stopped ∧
        (perform options World.pause (down .sqlite ledger)).run world ⟨stopped.2.files, []⟩ =
          undone ∧
        stopped.1.isOk = false ∧ stopped.1.mapError (·.kind) = .error .database ∧
        (Ledger.beyond (Ledger.entries (files ledger))
          (Ledger.entries (stopped.2.files ledger))).map (fun e => (e.file, e.batch)) =
            [(one.name, 1), (two.name, 1)] ∧
        undone.1.isOk ∧
        (Ledger.beyond (Ledger.entries (undone.2.files ledger))
          (Ledger.entries (stopped.2.files ledger))).map (·.file) = [one.name, two.name] :=
    ⟨_, _, rfl, rfl, by decide +kernel⟩
  obtain ⟨history, hup⟩ := Trail.exists_exec_reluctant hstopped
  obtain ⟨history', hdown⟩ := Trail.exists_exec_reluctant hundone
  have hinterrupted : ¬ EndsInconsistent stopped.1 := by
    rintro ⟨_, _, _, _, hinconsistent⟩
    rw [hinconsistent] at hkind
    cases hkind
  obtain ⟨htruthful, hfiles⟩ :=
    (audit_trail_is_truthful rfl rfl (Nat.le_refl _) options .sqlite files).1 _ _ hup
  obtain ⟨htruthful', hfiles'⟩ :=
    (audit_trail_is_truthful rfl rfl (Nat.le_refl _) options .sqlite stopped.2.files).2 _ _ hdown
  refine ⟨_, _, _, _, hup, hfailed, ?_, ?_, hdown, ?_, ?_⟩
  . apply (hfiles hinterrupted).trans
    have hnames := congrArg (List.map Prod.fst) hadded
    rw [List.map_map] at hnames
    exact hnames
  . apply htruthful.recorded.trans
    have htold := congrArg (List.map fun entry => Ledger.toldRecorded entry.2 entry.1) hadded
    rw [List.map_map] at htold
    exact htold.trans (by decide)
  . exact (hfiles' (not_endsInconsistent hok)).trans (congrArg List.reverse hremoved)
  . apply htruthful'.removed.trans
    have htold := congrArg (List.map Ledger.toldRemoved) hremoved
    rw [List.map_map] at htold
    exact htold.trans (by decide)

end Run

end SchemaMigration

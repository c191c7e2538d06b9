import SchemaMigration.Proofs.Machine.Replacement
import SchemaMigration.Proofs.Migration.Creation
import SchemaMigration.Proofs.Run.Agenda
import SchemaMigration.Proofs.Run.Directory
import SchemaMigration.Proofs.Timestamp

/-!
This module contains that migrations are listed and applied in the order in which they were created,
as far as they were created in different seconds.
-/

namespace SchemaMigration

open Program (Ensures Exec Within)

namespace Text

theorem append_lt_append {s t : Text} (hlength : s.length = t.length) (hlt : s < t)
    (s' t' : Text) : s ++ s' < t ++ t' := by
  induction s generalizing t with
  | nil =>
    rw [List.eq_nil_of_length_eq_zero hlength.symm] at hlt
    exact absurd hlt (List.lt_irrefl _)
  | cons a s ih =>
    cases t with
    | nil => cases hlength
    | cons b t =>
      rw [List.cons_lt_cons_iff] at hlt
      rw [List.cons_append, List.cons_append, List.cons_lt_cons_iff]
      exact hlt.imp_right fun ⟨hhead, htail⟩ => ⟨hhead, ih (Nat.succ.inj hlength) htail⟩

/-- In an increasing list, a smaller text stands before a larger one. -/
theorem pair_sublist_of_sorted {ts : List Text} {s t : Text} (h : ts.Pairwise (· < ·))
    (hs : s ∈ ts) (ht : t ∈ ts) (hlt : s < t) : [s, t].Sublist ts := by
  obtain ⟨before, after, rfl⟩ := List.append_of_mem hs
  obtain ⟨_, hafter, hbefore⟩ := List.pairwise_append.mp h
  apply List.Sublist.trans _ (List.sublist_append_right before _)
  refine List.Sublist.cons_cons s (List.singleton_sublist.mpr ?_)
  cases List.mem_append.mp ht with
  | inl hearly => exact absurd (hbefore t hearly s List.mem_cons_self) (List.lt_asymm hlt)
  | inr hlate =>
    cases List.mem_cons.mp hlate with
    | inl hsame =>
      rw [hsame] at hlt
      exact absurd hlt (List.lt_irrefl _)
    | inr hmem => exact hmem

end Text

namespace Migration

variable {S : Type} {world : Server World S} {directory : Path} {name : Text} {now : Moment}

theorem fileName_lt {stamp stamp' : Text} (hlength : stamp.length = stamp'.length)
    (hlt : stamp < stamp') (name name' : Text) : fileName stamp name < fileName stamp' name' := by
  unfold fileName
  rw [List.append_assoc, List.append_assoc]
  exact Text.append_lt_append hlength hlt _ _

theorem filePath_eq_ok {stamp : Text} {path : Path} (h : filePath directory stamp name = .ok path) :
    path = directory.join (fileName stamp name) := by
  unfold filePath at h
  split at h
  . cases h
  . split at h
    . cases h
    . cases h
      rfl

/-- Whatever the replies, a migration that is created has the file of its stamp and name. -/
theorem path_of_exec_create {path : Path} {s s' : S}
    (h : Exec world (create directory name now) s (.ok path) s') :
    path = directory.join (fileName now.stamp name) := by
  have hensures : Ensures (World.allowing fun _ => True) (create directory name now) ()
      fun outcome _ => ∀ path, outcome = .ok path →
        path = directory.join (fileName now.stamp name) := by
    unfold create
    rw [Program.ensures_bind, Program.ensures_ofExcept]
    cases hpath : filePath directory now.stamp name with
    | error e => exact nofun
    | ok found =>
      have hany : ∀ {β : Type} (p : Program World Failure β), Within (fun _ => True) p :=
        fun p => Program.ensures_true (fun _ _ => trivial) p ()
      refine (hany (makeDirectories directory)).ensures_bind (fun _ => ?_) nofun
      refine (hany (writeNew found (template name))).ensures_bind (fun _ => ?_) nofun
      rintro _ ⟨⟩
      exact filePath_eq_ok hpath
  exact hensures.of_exec (h.map (fun _ => ()) fun _ _ _ _ _ => trivial) path rfl

/-- Whatever the replies, migration files are listed in increasing order. -/
theorem sorted_of_exec_listFiles {names : List Text} {s s' : S}
    (h : Exec world (listFiles directory) s (.ok names) s') : names.Pairwise (· < ·) := by
  have hensures : Ensures (World.allowing fun _ => True) (listFiles directory) ()
      fun outcome _ => ∀ names, outcome = .ok names → names.Pairwise (· < ·) := by
    unfold listFiles
    refine ⟨trivial, fun isDirectory _ _ => ?_⟩
    cases isDirectory with
    | false => exact nofun
    | true =>
      refine ⟨trivial, fun found _ _ => ?_⟩
      cases found with
      | error errno => exact nofun
      | ok found =>
        rintro _ ⟨⟩
        exact fileNames_sorted found
  exact hensures.of_exec (h.map (fun _ => ()) fun _ _ _ _ _ => trivial) names rfl

end Migration

namespace Run

namespace Course

/-- The course of a run whose requests get whatever replies. -/
def anyhow : Server Access Course where
  Admits _ _ := True
  Serves r c reply c' := c' = c.after r reply

/--
Behind a migration that was committed, no smaller one of those that were read is left: it was
recorded, or it was committed before.
-/
def Ordered (c : Course) : Prop :=
  ∀ later ∈ c.committed, ∀ earlier ∈ c.files.map (·.name), earlier < later →
    earlier ∈ c.entries.map (·.file) ∨ [earlier, later].Sublist c.committed

variable {c : Course}

theorem ordered_of_committed_nil (h : c.committed = []) : c.Ordered := by
  intro later hlater
  rw [h] at hlater
  cases hlater

theorem ordered_of_prefix {state : Ledger.State} {files : List MigrationFile}
    {done rest : List Text} (h : done ++ rest = state.pending (files.map (·.name)))
    (updated? : Option Bool) : Ordered ⟨state.entries, files, done, updated?⟩ := by
  intro later hlater earlier hearlier hlt
  by_cases hrecorded : earlier ∈ state.files
  . exact .inl hrecorded
  right
  have hsorted := state.pending_sorted (files.map (·.name))
  have hpending : earlier ∈ state.pending (files.map (·.name)) :=
    Ledger.State.mem_pending.mpr ⟨hearlier, hrecorded⟩
  rw [← h] at hsorted hpending
  obtain ⟨hdone, _, hbefore⟩ := List.pairwise_append.mp hsorted
  cases List.mem_append.mp hpending with
  | inl hmem => exact Text.pair_sublist_of_sorted hdone hmem hlater hlt
  | inr hmem => exact absurd (hbefore later hlater earlier hmem) (List.lt_asymm hlt)

theorem ordered_ofStation (station : Station .apply) : (ofStation station).Ordered := by
  cases station with
  | start | loaded | opened | halted => exact ordered_of_committed_nil rfl
  | busy plan phase =>
    obtain ⟨rest, hfiles⟩ := phase.exists_eq_append
    have hprefix : phase.done.map (·.name) ++ rest.map (·.name) =
        plan.state.pending (plan.read.map (·.name)) := by
      rw [← List.map_append, ← hfiles]
      exact (agenda_apply_eq_ok_iff.mp (agenda_of_prepare plan.prepared)).1
    exact ordered_of_prefix hprefix _

theorem accompanies_anyhow (dialect : Sql.Dialect) :
    Accompanies dialect anyhow fun (station : Station .apply) c => c = ofStation station where
  admits _ _ := trivial
  serves := by
    rintro station r reply station' _ _ hstep rfl rfl
    exact after_ofStation hstep

theorem up_ordered (dialect : Sql.Dialect) (ledger : Path) :
    Ensures anyhow (up dialect ledger) initial fun _ c => c.Ordered := by
  apply ((accompanies_anyhow dialect).ensures (Station.up_ends dialect ledger) rfl).mono
  rintro outcome _ ⟨station, rfl, _⟩
  exact ordered_ofStation station

end Course

/--
A clock counts nanoseconds since 1970. Up to the end of the year 9999, the stamp and the timestamp
of a time have a fixed shape and can be read back, and they are ordered as the seconds and the
milliseconds of their times are. So of two migrations that were created in different seconds, the
earlier one is listed before the later one, and no run that finds both applies the later one unless
the earlier one was applied before.
-/
theorem filename_order_is_creation_order {t t' : Nat}
    (ht : t < 10 ^ 9 * (86400 * Calendar.daysBeforeYear 10000))
    (ht' : t' < 10 ^ 9 * (86400 * Calendar.daysBeforeYear 10000)) :
    let now := Moment.ofNanos t
    let now' := Moment.ofNanos t'
    Text.Like (ascii "00000000000000") now.stamp ∧
    Text.Like (ascii "0000-00-00T00:00:00.000Z") now.iso8601 ∧
    (∃ (r : Calendar.Reading) (millis : Nat), r.Valid ∧ millis < 1000 ∧
      now.stamp.fields [4, 2, 2, 2, 2, 2] = r.fields ∧ r.seconds = t / 10 ^ 9 ∧
      now.iso8601.fields [4, 2, 2, 2, 2, 2, 3] = r.fields ++ [millis] ∧
      1000 * r.seconds + millis = t / 10 ^ 6) ∧
    (t ≤ t' → now.stamp ≤ now'.stamp ∧ now.iso8601 ≤ now'.iso8601) ∧
    (now.stamp < now'.stamp ↔ t / 10 ^ 9 < t' / 10 ^ 9) ∧
    (now.iso8601 < now'.iso8601 ↔ t / 10 ^ 6 < t' / 10 ^ 6) ∧
    ∀ (S : Type) (world : Server World S) (directory path path' : Path) (name name' : Text)
      (s₁ s₁' s₂ s₂' : S), t / 10 ^ 9 < t' / 10 ^ 9 →
      Exec world (Migration.create directory name now) s₁ (.ok path) s₁' →
      Exec world (Migration.create directory name' now') s₂ (.ok path') s₂' →
      ∃ earlier later, path = directory.join earlier ∧ path' = directory.join later ∧
        earlier < later ∧
        (∀ (names : List Text) (s s' : S),
          Exec world (Migration.listFiles directory) s (.ok names) s' →
          earlier ∈ names → later ∈ names → [earlier, later].Sublist names) ∧
        ∀ (dialect : Sql.Dialect) (ledger : Path) (outcome : Except Failure Applied) (c : Course),
          Exec Course.anyhow (up dialect ledger) .initial outcome c →
          later ∈ c.committed → earlier ∈ c.files.map (·.name) →
          earlier ∈ c.entries.map (·.file) ∨ [earlier, later].Sublist c.committed := by
  intro now now'
  obtain ⟨r, millis, hreads, hseconds, hmillis⟩ := Moment.exists_reads ht
  obtain ⟨r', millis', hreads', hseconds', hmillis'⟩ := Moment.exists_reads ht'
  have hstamp := hreads.stamp_lt_iff hreads'
  have hstamp' := hreads'.stamp_lt_iff hreads
  have hiso := hreads.iso8601_lt_iff hreads'
  have hiso' := hreads'.iso8601_lt_iff hreads
  rw [hseconds, hseconds'] at hstamp hstamp'
  rw [hmillis, hmillis'] at hiso hiso'
  refine ⟨hreads.like_stamp, hreads.like_iso8601, ?_, ?_, hstamp, hiso, ?_⟩
  . exact ⟨r, millis, hreads.valid, hreads.millis_lt, hreads.fields_stamp, hseconds,
      hreads.fields_iso8601, hmillis⟩
  . intro hle
    refine ⟨fun hlt => ?_, fun hlt => ?_⟩
    . exact absurd (Nat.div_le_div_right hle) (Nat.not_le_of_lt (hstamp'.mp hlt))
    . exact absurd (Nat.div_le_div_right hle) (Nat.not_le_of_lt (hiso'.mp hlt))
  . intro S world directory path path' name name' s₁ s₁' s₂ s₂' hlt hcreate hcreate'
    have hlength : now.stamp.length = now'.stamp.length :=
      (List.Forall₂.length_eq hreads.like_stamp).symm.trans
        (List.Forall₂.length_eq hreads'.like_stamp)
    have hfile := Migration.fileName_lt hlength (hstamp.mpr hlt) name name'
    refine ⟨_, _, Migration.path_of_exec_create hcreate, Migration.path_of_exec_create hcreate',
      hfile, ?_, ?_⟩
    . intro names s s' hlist hearlier hlater
      exact Text.pair_sublist_of_sorted (Migration.sorted_of_exec_listFiles hlist) hearlier hlater
        hfile
    . intro dialect ledger outcome c hup hlater hearlier
      exact (Course.up_ordered dialect ledger).of_exec hup _ hlater _ hearlier hfile

namespace Course

def willing (files : List MigrationFile) : (r : Request) → Reply r
  | .load => .ok .empty
  | .loadFiles => .ok files
  | .record _ | .remove _ => .ok .empty
  | .listFiles => .ok (files.map (·.name))
  | .probe | .connect | .transaction _ _ _ | .disconnect => .ok ()
  | .log _ => ()

theorem exec_willing {α : Type} (files : List MigrationFile) (p : Program Access Failure α)
    (c : Course) :
    let result := p.run (fun r c => (willing files r, c.after r (willing files r))) c
    Exec anyhow p c result.1 result.2 :=
  Exec.run (fun _ _ => rfl) p c

end Course

/-- Two migrations on both sides of a second, the names of which are in the other order. -/
theorem filename_order_on_both_sides_of_second :
    let now := Moment.ofNanos 1699999999999999999
    let now' := Moment.ofNanos 1700000000000000000
    let earlier := ascii "20231114221319_z.sigl"
    let later := ascii "20231114221320_a.sigl"
    let m := Machine.plain ⟨.directory (ascii "db") .empty .empty⟩ .none
    let first := m.run (Migration.create (ascii "db") (ascii "z") now)
    let second := first.2.run (Migration.create (ascii "db") (ascii "a") now')
    now.stamp < now'.stamp ∧ now.iso8601 < now'.iso8601 ∧
      first.1 = .ok (Path.join (ascii "db") earlier) ∧
      second.1 = .ok (Path.join (ascii "db") later) ∧
      (∃ names, (second.2.run (Migration.listFiles (ascii "db"))).1 = .ok names ∧
        [earlier, later].Sublist names) ∧
      ∃ (outcome : Except Failure Applied) (c : Course),
        Exec Course.anyhow (up .sqlite (ascii "ledger.json")) .initial outcome c ∧
        [earlier, later].Sublist c.committed := by
  intro now now' earlier later m first second
  have hend : Calendar.daysBeforeYear 10000 = 2932897 := by
    have hclosed : Calendar.daysBeforeYear 10000 + 719162 + 9999 / 100 =
        365 * 9999 + 9999 / 4 + 9999 / 400 := Calendar.daysBeforeYear_succ_eq (by decide)
    generalize Calendar.daysBeforeYear 10000 = days at hclosed
    omega
  obtain ⟨_, _, _, _, hstamp, hiso, hcreated⟩ :=
    @filename_order_is_creation_order 1699999999999999999 1700000000000000000
      (by rw [hend]; decide) (by rw [hend]; decide)
  let world : Server World Machine := ⟨fun _ _ => True, fun _ _ _ _ => True⟩
  have hexec : ∀ {α : Type} (m : Machine) (p : Program World Failure α),
      Exec world p m (m.run p).1 (m.run p).2 :=
    fun m p => Exec.run (fun _ _ => trivial) p m
  have hfirst : first.1 = .ok (Path.join (ascii "db") earlier) :=
    eq_ok_of_toOption (by decide +kernel)
  have hsecond : second.1 = .ok (Path.join (ascii "db") later) :=
    eq_ok_of_toOption (by decide +kernel)
  have hlisted : (second.2.run (Migration.listFiles (ascii "db"))).1 = .ok [earlier, later] :=
    eq_ok_of_toOption (by decide +kernel)
  have hcreate := hexec m (Migration.create (ascii "db") (ascii "z") now)
  have hcreate' := hexec first.2 (Migration.create (ascii "db") (ascii "a") now')
  have hlist := hexec second.2 (Migration.listFiles (ascii "db"))
  change Exec _ _ _ first.1 _ at hcreate
  change Exec _ _ _ second.1 _ at hcreate'
  rw [hfirst] at hcreate
  rw [hsecond] at hcreate'
  rw [hlisted] at hlist
  obtain ⟨file, file', hpath, hpath', _, hsorts, happlies⟩ :=
    hcreated Machine world (ascii "db") _ _ (ascii "z") (ascii "a") _ _ _ _ (by decide) hcreate
      hcreate'
  cases Path.join_injective _ hpath
  cases Path.join_injective _ hpath'
  refine ⟨hstamp.mpr (by decide), hiso.mpr (by decide), hfirst, hsecond,
    ⟨_, hlisted, hsorts _ _ _ hlist List.mem_cons_self (List.mem_cons_of_mem _ List.mem_cons_self)⟩,
    ?_⟩
  let files : List MigrationFile :=
    [⟨later, ascii "model A \x7b id Int\n\x7d"⟩, ⟨earlier, ascii "model Z \x7b id Int\n\x7d"⟩]
  have hup := Course.exec_willing files (up .sqlite (ascii "ledger.json")) .initial
  refine ⟨_, _, hup, ?_⟩
  have hnew := happlies _ _ _ _ hup (by decide +kernel) (by decide +kernel)
  exact hnew.resolve_left (by decide +kernel)

end Run

end SchemaMigration

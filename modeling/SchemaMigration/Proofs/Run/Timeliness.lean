import SchemaMigration.Proofs.Run.Interleaving

/-!
This module contains when the ledger and the database agree behind runs in both directions that
share them. A run updates the ledger some time behind its transactions, and if another run has
undone one of them meanwhile, nobody notices. The ledger and the database agree about a file just if
the last update of the ledger for this file came in time.
-/

namespace SchemaMigration.Run

open Ledger (Appended Entry)

def commitsOf (acts : List Act) : History :=
  acts.flatMap fun
    | .commit direction file => [⟨direction, file⟩]
    | .update _ _ => []

def updatesOf (acts : List Act) : History :=
  acts.flatMap fun
    | .commit _ _ => []
    | .update direction files => files.map (Commit.mk direction)

/--
When the ledger was last updated for a file, the newest transaction of the file was one of the same
direction.
-/
def Timely (acts : List Act) (file : Text) : Prop :=
  ∀ before direction files after, acts = before ++ .update direction files :: after →
    file ∈ files → (updatesOf after).last? file = none →
      (commitsOf before).last? file = some direction

def Agrees (history : History) (acts : List Act) (file : Text) : Prop :=
  (history ++ updatesOf acts).last? file = some .apply ↔
    (history ++ commitsOf acts).last? file = some .apply

variable {history : History} {acts newer : List Act} {direction : Direction} {file : Text}
  {files : List Text}

theorem commitsOf_append (acts newer : List Act) :
    commitsOf (acts ++ newer) = commitsOf acts ++ commitsOf newer :=
  List.flatMap_append

theorem updatesOf_append (acts newer : List Act) :
    updatesOf (acts ++ newer) = updatesOf acts ++ updatesOf newer :=
  List.flatMap_append

theorem updatesOf_update (direction : Direction) (files : List Text) :
    updatesOf [.update direction files] = files.map (Commit.mk direction) :=
  List.append_nil _

theorem last?_append_eq_none {older newer : History} :
    (older ++ newer).last? file = none ↔ older.last? file = none ∧ newer.last? file = none := by
  rw [History.last?_append, Option.or_eq_none_iff, and_comm]

theorem timely_nil (file : Text) : Timely [] file := by
  intro before direction files after h
  simp at h

theorem timely_commit (other : Text) :
    Timely (acts ++ [.commit direction other]) file ↔ Timely acts file := by
  constructor
  . intro h before direction' files after heq hfile hlast
    apply h before direction' files (after ++ [.commit direction other])
    . rw [heq, List.append_assoc, List.cons_append]
    . exact hfile
    . rw [updatesOf_append, last?_append_eq_none]
      exact ⟨hlast, rfl⟩
  . intro h before direction' files after heq hfile hlast
    cases append_singleton_eq_iff.mp heq with
    | inl hnewest => cases hnewest.2.2
    | inr hearlier =>
      obtain ⟨newer, rfl, hacts⟩ := hearlier
      rw [updatesOf_append, last?_append_eq_none] at hlast
      exact h before direction' files newer hacts hfile hlast.1

theorem timely_update_of_mem (hfile : file ∈ files) :
    Timely (acts ++ [.update direction files]) file ↔
      (commitsOf acts).last? file = some direction := by
  constructor
  . intro h
    exact h acts direction files [] rfl hfile rfl
  . intro h before direction' files' after heq _ hlast
    cases append_singleton_eq_iff.mp heq with
    | inl hnewest =>
      obtain ⟨_, rfl, hact⟩ := hnewest
      cases hact
      exact h
    | inr hearlier =>
      -- The ledger is told about the file once more, behind the act in question.
      obtain ⟨newer, rfl, _⟩ := hearlier
      rw [updatesOf_append, last?_append_eq_none, updatesOf_update, History.last?_map_mk,
        if_pos hfile] at hlast
      cases hlast.2

theorem timely_update_of_not_mem (hfile : file ∉ files) :
    Timely (acts ++ [.update direction files]) file ↔ Timely acts file := by
  constructor
  . intro h before direction' files' after heq hmem hlast
    apply h before direction' files' (after ++ [.update direction files])
    . rw [heq, List.append_assoc, List.cons_append]
    . exact hmem
    . rw [updatesOf_append, last?_append_eq_none, updatesOf_update, History.last?_map_mk,
        if_neg hfile]
      exact ⟨hlast, rfl⟩
  . intro h before direction' files' after heq hmem hlast
    cases append_singleton_eq_iff.mp heq with
    | inl hnewest =>
      obtain ⟨_, _, hact⟩ := hnewest
      cases hact
      exact absurd hmem hfile
    | inr hearlier =>
      obtain ⟨newer, rfl, hacts⟩ := hearlier
      rw [updatesOf_append, last?_append_eq_none] at hlast
      exact h before direction' files' newer hacts hmem hlast.1

theorem last?_updatesOf_update (acts : List Act) (direction : Direction) (files : List Text)
    (file : Text) :
    (history ++ updatesOf (acts ++ [.update direction files])).last? file =
      if file ∈ files then some direction else (history ++ updatesOf acts).last? file := by
  rw [updatesOf_append, updatesOf_update, ← List.append_assoc, History.last?_append,
    History.last?_map_mk]
  split
  . rfl
  . rfl

theorem commitsOf_update (acts : List Act) (direction : Direction) (files : List Text) :
    commitsOf (acts ++ [.update direction files]) = commitsOf acts := by
  rw [commitsOf_append]
  exact List.append_nil _

theorem updatesOf_commit (acts : List Act) (direction : Direction) (file : Text) :
    updatesOf (acts ++ [.commit direction file]) = updatesOf acts := by
  rw [updatesOf_append]
  exact List.append_nil _

theorem last?_commitsOf_of_mem (h : .commit direction file ∈ acts) :
    ∃ newest, (commitsOf acts).last? file = some newest := by
  apply Option.ne_none_iff_exists'.mp
  intro hnone
  have hmem : ⟨direction, file⟩ ∈ commitsOf acts :=
    List.mem_flatMap.mpr ⟨_, h, List.mem_cons_self⟩
  unfold History.last? at hnone
  rw [Option.map_eq_none_iff, List.getLast?_eq_none_iff, List.filter_eq_nil_iff] at hnone
  exact hnone _ hmem (beq_self_eq_true _)

theorem agrees_commit {other : Text} (hne : file ≠ other) :
    Agrees history (acts ++ [.commit direction other]) file ↔ Agrees history acts file := by
  have hsame : (history ++ commitsOf (acts ++ [.commit direction other])).last? file =
      (history ++ commitsOf acts).last? file := by
    rw [commitsOf_append, ← List.append_assoc, History.last?_append]
    simp [commitsOf, History.last?, hne.symm]
  unfold Agrees
  rw [updatesOf_commit, hsame]

theorem agrees_update_of_not_mem (hfile : file ∉ files) :
    Agrees history (acts ++ [.update direction files]) file ↔ Agrees history acts file := by
  unfold Agrees
  rw [last?_updatesOf_update, if_neg hfile, commitsOf_update]

theorem agrees_update_of_mem (hfile : file ∈ files) {newest : Direction}
    (hnewest : (commitsOf acts).last? file = some newest) :
    Agrees history (acts ++ [.update direction files]) file ↔
      Timely (acts ++ [.update direction files]) file := by
  unfold Agrees
  rw [timely_update_of_mem hfile, last?_updatesOf_update, if_pos hfile, commitsOf_update,
    History.last?_append, hnewest, Option.some_or]
  -- There are only two directions.
  cases direction <;> cases newest <;> simp

variable {ι : Type} {course : ι → Course} {entries entries' : List Entry}

def Pending (course : ι → Course) (file : Text) : Prop :=
  ∃ i, file ∈ (course i).committed ∧ (course i).updated? = none

/--
The ledger records what it was told. About a file that no run has still to tell it about, it agrees
with the database just if it was told in time.
-/
structure Books (history : History) (acts : List Act) (entries : List Entry)
    (course : ι → Course) : Prop where
  recorded : ∀ file, file ∈ entries.map (·.file) ↔
    (history ++ updatesOf acts).last? file = some .apply
  settled : ∀ file, Pending course file ∨ (Agrees history acts file ↔ Timely acts file)

variable [DecidableEq ι] {i : ι} {c : Course}

theorem Pending.update (h : Pending course file)
    (hown : file ∈ (course i).committed → (course i).updated? = none →
      file ∈ c.committed ∧ c.updated? = none) : Pending (Function.update course i c) file := by
  obtain ⟨j, hcommitted, hupdated⟩ := h
  refine ⟨j, ?_⟩
  by_cases hj : j = i
  . subst hj
    rw [Function.update_self]
    exact hown hcommitted hupdated
  . rw [Function.update_of_ne hj]
    exact ⟨hcommitted, hupdated⟩

theorem Books.commit (h : Books history acts entries course) (hupdated : (course i).updated? = none)
    (name : Text) :
    Books history (acts ++ [.commit direction name]) entries
      (Function.update course i { course i with committed := (course i).committed ++ [name] }) := by
  refine ⟨?_, ?_⟩
  . rw [updatesOf_commit]
    exact h.recorded
  . intro file
    by_cases hname : file = name
    . left
      refine ⟨i, ?_⟩
      rw [Function.update_self, hname]
      exact ⟨List.mem_append_right _ List.mem_cons_self, hupdated⟩
    . rw [agrees_commit hname, timely_commit]
      refine (h.settled file).imp_left fun hpending => hpending.update ?_
      intro hfile hupdated
      exact ⟨List.mem_append_left _ hfile, hupdated⟩

theorem Books.update (h : Books history acts entries course)
    (hcommits : ∀ file ∈ (course i).committed, ∃ newest,
      (commitsOf acts).last? file = some newest)
    (hentries : ∀ file, file ∈ entries'.map (·.file) ↔
      if file ∈ (course i).committed then direction = .apply else file ∈ entries.map (·.file)) :
    Books history (acts ++ [.update direction (course i).committed]) entries'
      (Function.update course i { course i with updated? := some true }) := by
  refine ⟨?_, ?_⟩
  . intro file
    rw [hentries, last?_updatesOf_update]
    split
    . rw [Option.some_inj]
    . exact h.recorded file
  . intro file
    by_cases hfile : file ∈ (course i).committed
    . obtain ⟨newest, hnewest⟩ := hcommits file hfile
      exact .inr (agrees_update_of_mem hfile hnewest)
    . rw [agrees_update_of_not_mem hfile, timely_update_of_not_mem hfile]
      exact (h.settled file).imp_left fun hpending => hpending.update fun hmem => absurd hmem hfile

theorem Books.moves (h : Books history acts entries course)
    (hcommits : ∀ file ∈ (course i).committed, ∃ newest,
      (commitsOf acts).last? file = some newest)
    (hmoves : Moves direction (course i) entries c entries' newer) :
    c.updated? = some false ∨
      Books history (acts ++ newer) entries' (Function.update course i c) := by
  cases hmoves with
  | silent hcommitted hupdated =>
    right
    rw [List.append_nil]
    refine ⟨h.recorded, fun file => (h.settled file).imp_left fun hpending => hpending.update ?_⟩
    rw [hcommitted, hupdated]
    exact And.intro
  | commit name hupdated => exact .inr (h.commit hupdated name)
  | failed => exact .inl rfl
  | record ok hdirection _ _ hfiles happended =>
    cases ok with
    | false => exact .inl rfl
    | true =>
      right
      apply h.update hcommits
      intro file
      cases happended with
      | batch appliedAt _ _ =>
        rw [← hfiles, List.map_append, List.map_map, List.mem_append]
        split
        . next hfile => exact iff_of_true (.inr hfile) hdirection
        . next hfile => exact or_iff_left hfile
  | remove ok hdirection =>
    cases ok with
    | false => exact .inl rfl
    | true =>
      right
      apply h.update hcommits
      intro file
      rw [mem_files_filter]
      split
      . next hfile => simp [hfile, hdirection]
      . next hfile => exact and_iff_left hfile

theorem Course.Ends.settled {α : Type} {ledger : Path} {outcome : Except Failure α} {c : Course}
    (h : Course.Ends direction ledger outcome c) (hconsistent : ¬ EndsInconsistent outcome) :
    c.Settled := by
  cases h with
  | idle hcommitted hupdated => exact .inl ⟨hcommitted, hupdated⟩
  | updated hupdated => exact .inr hupdated
  | inconsistent _ cause => exact absurd ⟨_, _, _, _, rfl⟩ hconsistent

theorem Moves.failed_remains {c c' : Course} (h : Moves direction c entries c' entries' newer)
    (hfailed : c.updated? = some false) : c'.updated? = some false := by
  cases h with
  | silent _ hsame => exact hsame.trans hfailed
  | commit _ hupdated | record _ _ hupdated | remove _ _ hupdated | failed hupdated =>
    cases hupdated.symm.trans hfailed

namespace Scene

variable {jobs : ι → Job} {ledger : Path} {s s' : Scene ι} {files : Files}

/-- The books are in order, unless some run could not update the ledger. -/
def Balances (ledger : Path) (history : History) (s : Scene ι) : Prop :=
  (∃ i, (s.course i).updated? = some false) ∨
    Books history s.acts (Ledger.entries (s.files ledger)) s.course

theorem Balances.step (h : s.Balances ledger history) (hbehaves : s.Behaves jobs)
    (htallies : s.Tallies) (hledger : ∀ i, (jobs i).options.ledger = ledger)
    (hstep : Step jobs s s') : s'.Balances ledger history := by
  obtain ⟨i, c, newer, hmoves, hcourse, hacts⟩ := hbehaves.moves hledger hstep
  cases h with
  | inl hfailed =>
    left
    obtain ⟨j, hj⟩ := hfailed
    refine ⟨j, ?_⟩
    rw [hcourse]
    by_cases heq : j = i
    . subst heq
      rw [Function.update_self]
      exact hmoves.failed_remains hj
    . rw [Function.update_of_ne heq]
      exact hj
  | inr hbooks =>
    have hcommits : ∀ file ∈ (s.course i).committed, ∃ newest,
        (commitsOf s.acts).last? file = some newest := by
      intro file hfile
      obtain ⟨direction, hcommit⟩ := (htallies file).mpr ⟨i, hfile⟩
      exact last?_commitsOf_of_mem hcommit
    rw [Balances, hcourse, hacts]
    refine (hbooks.moves hcommits hmoves).imp_left fun hfailed => ⟨i, ?_⟩
    rw [Function.update_self]
    exact hfailed

theorem balances_of_steps (hledger : ∀ i, (jobs i).options.ledger = ledger)
    (hstart : ∀ file, file ∈ Ledger.recorded (files ledger) ↔ history.last? file = some .apply)
    (hruns : Relation.ReflTransGen (Step jobs) (initial jobs files) s) :
    s.Balances ledger history := by
  induction hruns with
  | refl =>
    refine .inr ⟨?_, fun file => .inr (iff_of_true Iff.rfl (timely_nil file))⟩
    intro file
    change _ ↔ (history ++ []).last? file = some .apply
    rw [← Ledger.recorded_eq, List.append_nil]
    exact hstart file
  | tail hruns hstep ih =>
    exact ih.step (behaves_of_steps hruns) (tallies_of_steps hledger hruns) hledger hstep

/--
However runs that share a ledger file and a database are interleaved, when all of them have ended
and none has reported an inconsistency, the ledger and the database agree about a file just if the
last update of the ledger for this file came in time.
-/
theorem recorded_iff_applied_iff_timely (hledger : ∀ i, (jobs i).options.ledger = ledger)
    (hstart : ∀ file, file ∈ Ledger.recorded (files ledger) ↔ history.last? file = some .apply)
    (hruns : Relation.ReflTransGen (Step jobs) (initial jobs files) s)
    (hended : ∀ i, ∃ outcome, s.outcome? i = some outcome ∧ ¬ EndsInconsistent outcome)
    (file : Text) :
    (file ∈ Ledger.recorded (s.files ledger) ↔
        (history ++ commitsOf s.acts).last? file = some .apply) ↔
      Timely s.acts file := by
  have hsettled : ∀ i, (s.course i).Settled := by
    intro i
    obtain ⟨outcome, houtcome, hconsistent⟩ := hended i
    exact ((behaves_of_steps hruns).ends houtcome).settled hconsistent
  have hbooks : Books history s.acts (Ledger.entries (s.files ledger)) s.course := by
    apply (balances_of_steps hledger hstart hruns).resolve_left
    rintro ⟨i, hfailed⟩
    cases hsettled i with
    | inl hidle => cases hidle.2.symm.trans hfailed
    | inr hupdated => cases hupdated.symm.trans hfailed
  rw [Ledger.recorded_eq, hbooks.recorded]
  apply (hbooks.settled file).resolve_left
  rintro ⟨i, hcommitted, hpending⟩
  cases hsettled i with
  | inl hidle =>
    rw [hidle.1] at hcommitted
    cases hcommitted
  | inr hupdated => cases hupdated.symm.trans hpending

/-- Two runs roll back the same file, and both of them update the ledger behind that. -/
theorem timely_of_overlapping_rollBacks :
    let ledger : Path := ascii "ledger.json"
    let file := ascii "1.sigl"
    let files : Files := fun path =>
      if path = ascii "m/1.sigl" then some (ascii "model A \x7b id Int\n\x7d") else none
    let options : Options := ⟨ascii "m", ledger, ⟨false, 0, 0⟩, ⟨0, 0⟩, ⟨1, 0⟩⟩
    let jobs : Fin 3 → Job := fun i => ⟨options, .sqlite, if i = 0 then .apply else .rollBack⟩
    ∃ s, Relation.ReflTransGen (Step jobs) (initial jobs files) s ∧
      (∀ i, s.outcome? i = some (.ok ())) ∧
      s.acts = [.commit .apply file, .update .apply [file], .commit .rollBack file,
        .commit .rollBack file, .update .rollBack [file], .update .rollBack [file]] ∧
      (file ∈ Ledger.recorded (s.files ledger) ↔ (commitsOf s.acts).last? file = some .apply) ∧
      Timely s.acts file := by
  intro ledger file files options jobs
  let schedule : List (Fin 3) := List.replicate 10 0 ++ List.replicate 6 1 ++
    List.replicate 10 2 ++ List.replicate 4 1
  obtain ⟨s, hs, hoks, hacts, hrecorded⟩ : ∃ s,
      schedule.foldl (turn jobs file) (initial jobs files) = s ∧
      (∀ i, (s.outcome? i).map (·.isOk) = some true) ∧
      s.acts = [.commit .apply file, .update .apply [file], .commit .rollBack file,
        .commit .rollBack file, .update .rollBack [file], .update .rollBack [file]] ∧
      Ledger.recorded (s.files ledger) = [] :=
    ⟨_, rfl, by decide +kernel⟩
  have hruns : Relation.ReflTransGen (Step jobs) (initial jobs files) s :=
    hs ▸ turns_steps jobs file (initial jobs files) schedule
  have hledger : ∀ i, (jobs i).options.ledger = ledger := fun _ => rfl
  have hstart : ∀ file, file ∈ Ledger.recorded (files ledger) ↔
      History.last? [] file = some .apply := by
    intro file
    exact iff_of_false List.not_mem_nil nofun
  have hended : ∀ i, ∃ outcome, s.outcome? i = some outcome ∧ ¬ EndsInconsistent outcome :=
    fun i => ⟨_, outcome?_eq_ok (hoks i), not_endsInconsistent rfl⟩
  have hagrees : file ∈ Ledger.recorded (s.files ledger) ↔
      (commitsOf s.acts).last? file = some .apply := by
    rw [hrecorded, hacts]
    decide
  refine ⟨s, hruns, fun i => outcome?_eq_ok (hoks i), hacts, hagrees, ?_⟩
  exact (recorded_iff_applied_iff_timely hledger hstart hruns hended file).mp hagrees

/--
The ledger and the database may come to disagree about a file without any failure. The runs 0, 1 and
2 follow one another and apply, roll back and apply a file. The run 3 rolls it back for a second
time beside run 1, and removes it from the ledger behind run 2.
-/
theorem late_rollBack_removes_applied :
    let ledger : Path := ascii "ledger.json"
    let file := ascii "1.sigl"
    let files : Files := fun path =>
      if path = ascii "m/1.sigl" then some (ascii "model A \x7b id Int\n\x7d") else none
    let options : Options := ⟨ascii "m", ledger, ⟨false, 0, 0⟩, ⟨0, 0⟩, ⟨1, 0⟩⟩
    let jobs : Fin 4 → Job := fun i =>
      ⟨options, .sqlite, if i = 0 ∨ i = 2 then .apply else .rollBack⟩
    let schedule : List (Fin 4) := List.replicate 10 0 ++ List.replicate 6 3 ++
      List.replicate 10 1 ++ List.replicate 10 2 ++ List.replicate 4 3
    let s := schedule.foldl (turn jobs file) (initial jobs files)
    Relation.ReflTransGen (Step jobs) (initial jobs files) s ∧
      Ledger.recorded (files ledger) = [] ∧ (∀ i, s.outcome? i = some (.ok ())) ∧
      (commitsOf s.acts).last? file = some .apply ∧ Ledger.recorded (s.files ledger) = [] := by
  intro ledger file files options jobs schedule s
  have hs : (∀ i, (s.outcome? i).map (·.isOk) = some true) ∧
      (commitsOf s.acts).last? file = some .apply ∧ Ledger.recorded (s.files ledger) = [] := by
    decide +kernel
  refine ⟨turns_steps jobs file _ schedule, rfl, ?_, hs.2⟩
  intro i
  exact outcome?_eq_ok (hs.1 i)

end Scene

end SchemaMigration.Run

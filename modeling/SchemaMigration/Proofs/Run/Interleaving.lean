import Mathlib.Logic.Function.Basic
import Mathlib.Logic.Relation
import SchemaMigration.Proofs.Run.Account
import SchemaMigration.Proofs.Run.Service

/-!
This module contains runs that share a ledger file and a database. Their requests are served one at
a time, in any order: whole operations on the ledger, and whole transactions.
-/

namespace SchemaMigration.Run

open Program (Ensures Exec)

structure Job where
  options : Options
  dialect : Sql.Dialect
  direction : Direction

def Job.program (job : Job) : Program Access Failure Unit :=
  match job.direction with
  | .apply => do
    let _ ← up job.dialect job.options.ledger
    return ()
  | .rollBack => do
    let _ ← down job.dialect job.options.ledger
    return ()

inductive Act where
  | commit (direction : Direction) (file : Text)
  | update (direction : Direction) (files : List Text)
  deriving DecidableEq, Repr

def acts : (r : Request) → Reply r → List Act
  | .transaction direction file _, .ok () => [.commit direction file]
  | .record files, .ok _ => [.update .apply (files.map (·.name))]
  | .remove files, .ok _ => [.update .rollBack files]
  | _, _ => []

structure Scene (ι : Type) where
  files : Files
  acts : List Act
  program : ι → Program Access Failure Unit
  course : ι → Course

namespace Scene

variable {ι : Type}

def initial (jobs : ι → Job) (files : Files) : Scene ι :=
  ⟨files, [], fun i => (jobs i).program, fun _ => .initial⟩

def outcome? (s : Scene ι) (i : ι) : Option (Except Failure Unit) :=
  match s.program i with
  | .done _ => some (.ok ())
  | .fail e => some (.error e)
  | .ask _ _ => none

theorem outcome?_eq_ok {s : Scene ι} {i : ι} (h : (s.outcome? i).map (·.isOk) = some true) :
    s.outcome? i = some (.ok ()) := by
  obtain ⟨outcome, houtcome, hok⟩ := Option.map_eq_some_iff.mp h
  cases outcome with
  | ok _ => exact houtcome
  | error e => cases hok

variable [DecidableEq ι]

def after (s : Scene ι) (i : ι) (files : Files) {r : Request} (reply : Reply r)
    (next : Program Access Failure Unit) : Scene ι where
  files := files
  acts := s.acts ++ Run.acts r reply
  program := Function.update s.program i next
  course := Function.update s.course i ((s.course i).after r reply)

/--
A run makes its next request. Others may change all files meanwhile but the ledger file and the
temporary files beside it.
-/
inductive StepOf (jobs : ι → Job) (i : ι) : Scene ι → Scene ι → Prop
  | ask {s : Scene ι} {r : Request} {next : Reply r → Program Access Failure Unit}
    {reply : Reply r} {files : Files} (hprogram : s.program i = .ask r next)
    (hserve : Exec (World.server (File.Owns (jobs i).options.ledger))
      (serve (jobs i).options World.pause r) s.files (.ok reply) files) :
    StepOf jobs i s (s.after i files reply (next reply))

def Step (jobs : ι → Job) (s s' : Scene ι) : Prop := ∃ i, StepOf jobs i s s'

end Scene

/--
What a request does to the course of its run, to the entries of the ledger file and to the record of
acts.
-/
inductive Moves (direction : Direction) (c : Course) (entries : List Ledger.Entry) :
    Course → List Ledger.Entry → List Act → Prop
  | silent {c' : Course} (hcommitted : c'.committed = c.committed)
    (hupdated : c'.updated? = c.updated?) : Moves direction c entries c' entries []
  | commit (file : Text) (hupdated : c.updated? = none) :
    Moves direction c entries { c with committed := c.committed ++ [file] } entries
      [.commit direction file]
  | record {files : List MigrationFile} {entries' : List Ledger.Entry} (ok : Bool)
    (hdirection : direction = .apply) (hupdated : c.updated? = none) (hcommitted : c.committed ≠ [])
    (hfiles : files.map (·.name) = c.committed)
    (happended : Ledger.Appended files entries entries') :
    Moves direction c entries { c with updated? := some ok } entries'
      (if ok then [.update direction c.committed] else [])
  | remove (ok : Bool) (hdirection : direction = .rollBack) (hupdated : c.updated? = none)
    (hcommitted : c.committed ≠ []) :
    Moves direction c entries { c with updated? := some ok }
      (entries.filter (!c.committed.contains ·.file))
      (if ok then [.update direction c.committed] else [])
  | failed (hupdated : c.updated? = none) :
    Moves direction c entries { c with updated? := some false } entries []

theorem moves_of_admits {dialect : Sql.Dialect} {direction : Direction} {c : Course} {r : Request}
    {reply : Reply r} {entries entries' : List Ledger.Entry}
    (hadmits : (Course.server dialect direction).Admits r c)
    (halters : Alters r reply entries entries') :
    Moves direction c entries (c.after r reply) entries' (acts r reply) := by
  cases r with
  | load =>
    obtain ⟨rfl, _⟩ := halters
    cases reply with
    | ok s => exact .silent rfl rfl
    | error e => exact .silent rfl rfl
  | record files =>
    obtain ⟨hdirection, hupdated, hcommitted, hfiles, _⟩ := hadmits
    cases halters with
    | inl hfailed =>
      obtain ⟨rfl, hreply⟩ := hfailed
      cases reply with
      | ok s => cases hreply
      | error e => exact .failed hupdated
    | inr happended =>
      subst hdirection
      cases reply with
      | ok s =>
        rw [acts, hfiles]
        exact .record true rfl hupdated hcommitted hfiles happended
      | error e => exact .record false rfl hupdated hcommitted hfiles happended
  | remove files =>
    obtain ⟨hdirection, hupdated, hcommitted, rfl⟩ := hadmits
    cases halters with
    | inl hfailed =>
      obtain ⟨rfl, hreply⟩ := hfailed
      cases reply with
      | ok s => cases hreply
      | error e => exact .failed hupdated
    | inr hremoved =>
      subst hdirection hremoved
      cases reply with
      | ok s => exact .remove true rfl hupdated hcommitted
      | error e => exact .remove false rfl hupdated hcommitted
  | transaction direction' file sql =>
    obtain ⟨rfl, hupdated, _⟩ := hadmits
    cases halters
    cases reply with
    | ok _ => exact .commit file hupdated
    | error e => exact .silent rfl rfl
  | loadFiles =>
    cases halters
    cases reply with
    | ok files => exact .silent rfl rfl
    | error e => exact .silent rfl rfl
  | _ =>
    cases halters
    exact .silent rfl rfl

theorem Moves.committed {direction : Direction} {c c' : Course}
    {entries entries' : List Ledger.Entry} {newer : List Act}
    (h : Moves direction c entries c' entries' newer) :
    ∃ names, c'.committed = c.committed ++ names ∧
      ∀ file, (∃ direction, .commit direction file ∈ newer) ↔ file ∈ names := by
  cases h with
  | silent hcommitted => exact ⟨[], hcommitted.trans (List.append_nil _).symm, by simp⟩
  | commit file => exact ⟨[file], rfl, by simp⟩
  | record ok | remove ok =>
    refine ⟨[], (List.append_nil _).symm, ?_⟩
    cases ok with
    | false => simp
    | true => simp
  | failed => exact ⟨[], (List.append_nil _).symm, by simp⟩

theorem Course.Ends.unit {α : Type} {direction : Direction} {ledger : Path} {c : Course}
    {outcome : Except Failure α} (h : Course.Ends direction ledger outcome c) :
    Course.Ends direction ledger (outcome.map fun _ => ()) c := by
  cases h with
  | idle hcommitted hupdated => exact .idle hcommitted hupdated
  | updated hupdated => exact .updated hupdated
  | inconsistent hupdated cause => exact .inconsistent hupdated cause

theorem Course.ensures_unit {α : Type} {direction : Direction} {ledger : Path}
    {p : Program Access Failure α} {dialect : Sql.Dialect}
    (h : Ensures (Course.server dialect direction) p .initial (Course.Ends direction ledger)) :
    Ensures (Course.server dialect direction) (p >>= fun _ => pure ()) .initial
      (Course.Ends direction ledger) := by
  rw [Program.ensures_bind]
  apply h.mono
  intro outcome c hends
  cases outcome with
  | ok a => exact hends.unit
  | error e => exact hends.unit

theorem Job.program_ensures (job : Job) :
    Ensures (Course.server job.dialect job.direction) job.program .initial
      (Course.Ends job.direction job.options.ledger) := by
  unfold Job.program
  split
  . next h =>
    rw [h]
    exact Course.ensures_unit (Course.up_ensures _ _)
  . next h =>
    rw [h]
    exact Course.ensures_unit (Course.down_ensures _ _)

namespace Scene

variable {ι : Type} {jobs : ι → Job} {ledger : Path} {s s' : Scene ι}

def Behaves (jobs : ι → Job) (s : Scene ι) : Prop :=
  ∀ i, Ensures (Course.server (jobs i).dialect (jobs i).direction) (s.program i) (s.course i)
    (Course.Ends (jobs i).direction (jobs i).options.ledger)

theorem Behaves.ends (h : s.Behaves jobs) {i : ι} {outcome : Except Failure Unit}
    (hended : s.outcome? i = some outcome) :
    Course.Ends (jobs i).direction (jobs i).options.ledger outcome (s.course i) := by
  have hi := h i
  unfold outcome? at hended
  split at hended
  . next hprogram =>
    cases hended
    rw [hprogram] at hi
    exact hi
  . next e hprogram =>
    cases hended
    rw [hprogram] at hi
    exact hi
  . cases hended

variable [DecidableEq ι]

theorem Behaves.step (h : s.Behaves jobs) (hstep : Step jobs s s') : s'.Behaves jobs := by
  obtain ⟨i, hstep⟩ := hstep
  cases hstep with
  | @ask r next reply files hprogram hserve =>
    intro j
    by_cases hj : j = i
    . subst hj
      have hi := h j
      rw [hprogram] at hi
      simp only [after, Function.update_self]
      exact hi.2 reply _ rfl
    . simp only [after, Function.update_of_ne hj]
      exact h j

theorem Behaves.movesOf (h : s.Behaves jobs) (hledger : ∀ i, (jobs i).options.ledger = ledger)
    {i : ι} (hstep : StepOf jobs i s s') :
    ∃ c newer, Moves (jobs i).direction (s.course i) (Ledger.entries (s.files ledger)) c
        (Ledger.entries (s'.files ledger)) newer ∧
      s'.course = Function.update s.course i c ∧ s'.acts = s.acts ++ newer := by
  cases hstep with
  | @ask r next reply files hprogram hserve =>
    have hi := h i
    rw [hprogram] at hi
    have halters := serve_alters hserve
    rw [hledger i] at halters
    exact ⟨_, _, moves_of_admits hi.1 halters, rfl, rfl⟩

theorem Behaves.moves (h : s.Behaves jobs) (hledger : ∀ i, (jobs i).options.ledger = ledger)
    (hstep : Step jobs s s') :
    ∃ i c newer, Moves (jobs i).direction (s.course i) (Ledger.entries (s.files ledger)) c
        (Ledger.entries (s'.files ledger)) newer ∧
      s'.course = Function.update s.course i c ∧ s'.acts = s.acts ++ newer := by
  obtain ⟨i, hstep⟩ := hstep
  exact ⟨i, h.movesOf hledger hstep⟩

theorem behaves_of_runs (h : s.Behaves jobs) (hruns : Relation.ReflTransGen (Step jobs) s s') :
    s'.Behaves jobs := by
  induction hruns with
  | refl => exact h
  | tail _ hstep ih => exact ih.step hstep

theorem behaves_of_steps {files : Files}
    (hruns : Relation.ReflTransGen (Step jobs) (initial jobs files) s) : s.Behaves jobs :=
  behaves_of_runs (fun i => (jobs i).program_ensures) hruns

def Tallies (s : Scene ι) : Prop :=
  ∀ file, (∃ direction, .commit direction file ∈ s.acts) ↔ ∃ i, file ∈ (s.course i).committed

theorem mem_update_iff {course : ι → Course} {i : ι} {c : Course} {names : List Text}
    (h : c.committed = (course i).committed ++ names) (file : Text) :
    (∃ j, file ∈ (Function.update course i c j).committed) ↔
      (∃ j, file ∈ (course j).committed) ∨ file ∈ names := by
  constructor
  . rintro ⟨j, hj⟩
    by_cases heq : j = i
    . subst heq
      rw [Function.update_self, h, List.mem_append] at hj
      exact hj.imp_left fun hold => ⟨j, hold⟩
    . rw [Function.update_of_ne heq] at hj
      exact .inl ⟨j, hj⟩
  . rintro (⟨j, hj⟩ | hnew)
    . refine ⟨j, ?_⟩
      by_cases heq : j = i
      . subst heq
        rw [Function.update_self, h]
        exact List.mem_append_left _ hj
      . rw [Function.update_of_ne heq]
        exact hj
    . refine ⟨i, ?_⟩
      rw [Function.update_self, h]
      exact List.mem_append_right _ hnew

theorem Tallies.step (h : s.Tallies) (hbehaves : s.Behaves jobs)
    (hledger : ∀ i, (jobs i).options.ledger = ledger) (hstep : Step jobs s s') : s'.Tallies := by
  obtain ⟨i, c, newer, hmoves, hcourse, hacts⟩ := hbehaves.moves hledger hstep
  obtain ⟨names, hcommitted, hnames⟩ := hmoves.committed
  intro file
  rw [hcourse, hacts, mem_update_iff hcommitted, ← h file, ← hnames file, ← exists_or]
  apply exists_congr
  intro direction
  exact List.mem_append

theorem tallies_of_steps {files : Files} (hledger : ∀ i, (jobs i).options.ledger = ledger)
    (hruns : Relation.ReflTransGen (Step jobs) (initial jobs files) s) : s.Tallies := by
  induction hruns with
  | refl =>
    intro file
    simp [initial, Course.initial]
  | tail hruns hstep ih => exact ih.step (behaves_of_steps hruns) hledger hstep

def turn (jobs : ι → Job) (file : Text) (s : Scene ι) (i : ι) : Scene ι :=
  match s.program i with
  | .done _ | .fail _ => s
  | .ask r next =>
    match (serve (jobs i).options World.pause r).run (World.obliging file) s.files with
    | (.ok reply, files) => s.after i files reply (next reply)
    | (.error _, _) => s

theorem turn_steps (jobs : ι → Job) (file : Text) (s : Scene ι) (i : ι) :
    Relation.ReflTransGen (Step jobs) s (s.turn jobs file i) := by
  unfold turn
  split
  . exact .refl
  . exact .refl
  . next r next hprogram =>
    split
    . next reply files hrun => exact .single ⟨i, .ask hprogram (World.exec_obliging hrun _)⟩
    . exact .refl

theorem turns_steps (jobs : ι → Job) (file : Text) (s : Scene ι) (schedule : List ι) :
    Relation.ReflTransGen (Step jobs) s (schedule.foldl (turn jobs file) s) := by
  induction schedule generalizing s with
  | nil => exact .refl
  | cons i schedule ih => exact (turn_steps jobs file s i).trans (ih _)

end Scene

end SchemaMigration.Run

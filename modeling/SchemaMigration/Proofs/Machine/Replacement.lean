import SchemaMigration.Proofs.Machine.Service

/-!
This module contains the replacement of a file on a machine whose system calls may fail in any way.
The file has its old content or its new one at every moment, nothing else is changed, and writes
that are interrupted make no difference.
-/

namespace SchemaMigration

namespace Disk

variable {d : Disk}

theorem walk_ne_interrupted (t : Target) (parts : List Text) :
    d.walk t parts ≠ .error .interrupted := by
  induction parts generalizing t with
  | nil => exact nofun
  | cons part rest ih =>
    unfold walk
    split
    . next errno hstep =>
      rintro ⟨⟩
      unfold step at hstep
      split at hstep
      . cases hstep
      . cases hstep
      . split at hstep
        . cases hstep
        . split at hstep
          . cases hstep
          . split at hstep <;> cases hstep
    . exact ih _

/-- Only a system call is interrupted. -/
theorem append_ne_interrupted (d : Disk) (path : Path) (data : Text) :
    d.append path data ≠ .error .interrupted := by
  have hresolve : d.resolve path ≠ .error .interrupted := by
    unfold resolve
    split
    . exact nofun
    . split
      . exact nofun
      . split
        . next errno hwalk =>
          rintro ⟨⟩
          exact walk_ne_interrupted _ _ hwalk
        . exact nofun
  unfold append writable
  cases hresolved : d.resolve path with
  | error errno =>
    rintro ⟨⟩
    exact hresolve hresolved
  | ok t =>
    rw [ok_bind]
    split
    . exact nofun
    . split <;> exact nofun

end Disk

namespace Machine

open Program (Ensures)

def withWrites (m : Machine) (outcomes : List Outcome) : Machine :=
  { m with plan := { m.plan with write := outcomes } }

def isInterrupted (outcome : Outcome) : Bool := outcome == .fail .interrupted

def calm (m : Machine) : Machine := m.withWrites (m.plan.write.filter (!isInterrupted ·))

section Interruption

variable {m : Machine} {path : Path} {data : Text} {outcome : Outcome} {rest : List Outcome}

theorem write_ne_interrupted (h : isInterrupted (next m.plan.write).1 = false) :
    (m.write path data).1 ≠ .error .interrupted := by
  unfold write
  dsimp only
  split
  . next errno htaken =>
    rintro ⟨⟩
    generalize (next m.plan.write).1 = outcome at h htaken
    cases outcome with
    | fail errno =>
      cases htaken
      cases h
    | succeed => cases htaken
    | short count => cases htaken
  . split
    . next errno happend =>
      rintro ⟨⟩
      exact m.disk.append_ne_interrupted path _ happend
    . exact nofun

/-- A reply that is no interruption ends the repetition. -/
theorem restart_of_ne (h : (m.write path data).1 ≠ .error .interrupted) (bound : Nat) :
    m.run (World.restart (World.call (.write path data)) bound : Program World Failure _) =
      (.ok (m.write path data).1, (m.write path data).2) := by
  cases bound with
  | zero => rfl
  | succ bound =>
    have hfirst : m.run (World.call (.write path data) : Program World Failure _) =
      (.ok (m.write path data).1, (m.write path data).2) := rfl
    unfold World.restart
    refine (Program.run_bind_of_ok hfirst _).trans ?_
    split
    . next hinterrupted => exact absurd hinterrupted h
    . rfl

/-- An interruption takes nothing of the data and leaves the file alone. -/
theorem write_of_interrupted (h : isInterrupted outcome = true) :
    (m.withWrites (outcome :: rest)).write path data =
      (.error .interrupted, m.withWrites rest) := by
  obtain rfl : outcome = .fail .interrupted := eq_of_beq h
  rfl

/-- To make a write again as often as it is interrupted is to make it where that is over. -/
theorem restart_write (m : Machine) {outcomes : List Outcome} {bound : Nat}
    (hbound : outcomes.countP isInterrupted ≤ bound) :
    (m.withWrites outcomes).run
        (World.restart (World.call (.write path data)) bound : Program World Failure _) =
      (.ok ((m.withWrites (outcomes.dropWhile isInterrupted)).write path data).1,
        ((m.withWrites (outcomes.dropWhile isInterrupted)).write path data).2) := by
  induction outcomes generalizing bound with
  | nil => exact restart_of_ne (write_ne_interrupted rfl) bound
  | cons outcome rest ih =>
    cases houtcome : isInterrupted outcome with
    | false =>
      rw [List.dropWhile_cons_of_neg (by simp [houtcome])]
      apply restart_of_ne
      apply write_ne_interrupted
      exact houtcome
    | true =>
      rw [List.countP_cons_of_pos houtcome] at hbound
      obtain ⟨bound, rfl⟩ := Nat.exists_eq_add_of_lt (Nat.lt_of_lt_of_le (Nat.succ_pos _) hbound)
      have hfirst : (m.withWrites (outcome :: rest)).run
          (World.call (.write path data) : Program World Failure _) =
            (.ok (.error .interrupted), m.withWrites rest) := by
        have hwrite : (m.withWrites (outcome :: rest)).write path data = _ :=
          write_of_interrupted houtcome
        change (Except.ok (Machine.write _ path data).1, (Machine.write _ path data).2) = _
        rw [hwrite]
      rw [List.dropWhile_cons_of_pos houtcome]
      unfold World.restart
      refine (Program.run_bind_of_ok hfirst _).trans ?_
      exact ih (by omega)

/-- What is planned behind the next outcome is left for later. -/
theorem write_withWrites_cons (m : Machine) (outcome : Outcome) (rest : List Outcome) :
    (m.withWrites (outcome :: rest)).write path data =
      (((m.withWrites [outcome]).write path data).1,
        ((m.withWrites [outcome]).write path data).2.withWrites rest) := by
  unfold write
  dsimp only [withWrites, next]
  cases taken data outcome with
  | error errno => rfl
  | ok count =>
    dsimp only
    cases m.disk.append path (data.take count) with
    | error errno => rfl
    | ok disk => rfl

/-- The first write that is not interrupted is the same, whether the interruptions are planned. -/
theorem write_filter (m : Machine) (outcomes : List Outcome) :
    (m.withWrites (outcomes.filter (!isInterrupted ·))).write path data =
      (((m.withWrites (outcomes.dropWhile isInterrupted)).write path data).1,
        ((m.withWrites (outcomes.dropWhile isInterrupted)).write path data).2.calm) := by
  induction outcomes with
  | nil =>
    -- Where nothing is planned, the write succeeds.
    have hempty : (m.withWrites []).write path data = (m.withWrites [.succeed]).write path data :=
      rfl
    rw [List.filter_nil, List.dropWhile_nil, hempty, write_withWrites_cons]
    rfl
  | cons outcome rest ih =>
    cases houtcome : isInterrupted outcome with
    | true =>
      rw [List.filter_cons_of_neg (by simp [houtcome]), List.dropWhile_cons_of_pos houtcome]
      exact ih
    | false =>
      -- Both sides take the same outcome, and then only what is planned for later differs.
      rw [List.filter_cons_of_pos (by simp [houtcome]),
        List.dropWhile_cons_of_neg (by simp [houtcome]), write_withWrites_cons,
        write_withWrites_cons m outcome rest]
      rfl

theorem dropWhile_filter (outcomes : List Outcome) :
    (outcomes.filter (!isInterrupted ·)).dropWhile isInterrupted =
      outcomes.filter (!isInterrupted ·) := by
  induction outcomes with
  | nil => rfl
  | cons outcome rest ih =>
    cases houtcome : isInterrupted outcome with
    | true => rw [List.filter_cons_of_neg (by simp [houtcome]), ih]
    | false =>
      rw [List.filter_cons_of_pos (by simp [houtcome]),
        List.dropWhile_cons_of_neg (by simp [houtcome])]

end Interruption

/-- Interruptions of writes make no difference to a program. -/
def Steady {α : Type} (p : Program World Failure α) : Prop :=
  ∀ m : Machine, m.calm.run p = ((m.run p).1, (m.run p).2.calm)

namespace Steady

variable {α β : Type} {p : Program World Failure α} {f : α → Program World Failure β}

theorem pure (a : α) : Steady (Pure.pure a) := fun _ => rfl

theorem throw (e : Failure) : Steady (MonadExcept.throw e : Program World Failure α) := fun _ => rfl

theorem bind (hp : Steady p) (hf : ∀ a, Steady (f a)) : Steady (p >>= f) := by
  intro m
  have hcalm := hp m
  cases hrun : m.run p with
  | mk outcome m' =>
    rw [hrun] at hcalm
    cases outcome with
    | ok a =>
      rw [show m.run (p >>= f) = _ from Program.run_bind_of_ok hrun f,
        show m.calm.run (p >>= f) = _ from Program.run_bind_of_ok hcalm f]
      exact hf a m'
    | error e =>
      rw [show m.run (p >>= f) = _ from Program.run_bind_of_error hrun f,
        show m.calm.run (p >>= f) = _ from Program.run_bind_of_error hcalm f]

end Steady

theorem onDisk_calm (m : Machine) (change : Except Errno Disk) :
    m.calm.onDisk change = ((m.onDisk change).1, (m.onDisk change).2.calm) := by
  cases change with
  | error errno => rfl
  | ok disk => rfl

theorem planned_calm (m : Machine) (outcome : Outcome) (change : Except Errno Disk) :
    m.calm.planned outcome change =
      ((m.planned outcome change).1, (m.planned outcome change).2.calm) := by
  unfold planned
  cases replyOf outcome with
  | error errno => rfl
  | ok _ => exact onDisk_calm m change

def BesideWrites : World.Request → Prop
  | .freshName | .create _ | .sync _ | .close _ | .rename _ _ | .remove _ | .openDirectory _
  | .syncDirectory _ | .closeDirectory _ => True
  | _ => False

theorem serve_calm {r : World.Request} (hr : BesideWrites r) (m : Machine) :
    serve r m.calm = ((serve r m).1, (serve r m).2.calm) := by
  cases r with
  | create path => exact onDisk_calm m _
  | remove path => exact onDisk_calm m _
  | rename source target =>
    exact planned_calm { m with plan := { m.plan with rename := (next m.plan.rename).2 } } _ _
  | openDirectory path =>
    have hdisk : m.calm.disk.find = m.disk.find := rfl
    simp only [serve, hdisk]
    split
    . rfl
    . rfl
    . rfl
  | freshName | sync | close | syncDirectory | closeDirectory => rfl
  | _ => cases hr

theorem Steady.call_bind {r : World.Request} {β : Type}
    {f : World.Reply r → Program World Failure β} (hr : BesideWrites r) (hf : ∀ reply, Steady (f reply)) : Steady (World.call r >>= f) := by
  intro m
  change m.calm.run (.ask r f) = ((m.run (.ask r f)).1, (m.run (.ask r f)).2.calm)
  unfold run Program.run
  rw [serve_calm hr]
  exact hf _ _

theorem countP_le_interruptions (m : Machine) :
    m.plan.write.countP isInterrupted ≤ m.plan.interruptions :=
  Nat.le_add_right (m.plan.write.count _) _

/-- A write that is made until it is not interrupted. -/
theorem steady_write (path : Path) (data : Text) :
    Steady (World.uninterrupted (World.call (.write path data))) := by
  have hrun : ∀ m : Machine,
      m.run (World.uninterrupted (World.call (.write path data)) : Program World Failure _) =
        (.ok ((m.withWrites (m.plan.write.dropWhile isInterrupted)).write path data).1,
          ((m.withWrites (m.plan.write.dropWhile isInterrupted)).write path data).2) :=
    fun m => restart_write m (countP_le_interruptions m)
  intro m
  have hcalm := hrun m.calm
  rw [show m.calm.plan.write = m.plan.write.filter (!isInterrupted ·) from rfl, dropWhile_filter,
    show m.calm.withWrites _ = m.withWrites _ from rfl, write_filter] at hcalm
  rw [hcalm, hrun m]

theorem steady_abandon (temporary : Path) (action : FileAction) (errno : Errno) :
    Steady (File.abandon temporary action errno) := by
  unfold File.abandon
  refine Steady.call_bind trivial fun _ => ?_
  exact Steady.call_bind trivial fun _ => .throw _

theorem steady_writeAll (temporary : Path) (fuel : Nat) (data : Text) :
    Steady (File.writeAll temporary fuel data) := by
  induction fuel generalizing data with
  | zero =>
    cases data with
    | nil => exact .pure ()
    | cons b rest => exact steady_abandon _ _ _
  | succ fuel ih =>
    cases data with
    | nil => exact .pure ()
    | cons b rest =>
      refine (steady_write temporary (b :: rest)).bind fun reply => ?_
      cases reply with
      | error errno => exact steady_abandon _ _ _
      | ok count => exact ih _

theorem steady_syncDirectory (directory : Path) : Steady (File.syncDirectory directory) := by
  unfold File.syncDirectory
  refine Steady.call_bind trivial fun opened => ?_
  cases opened with
  | error errno => exact .throw _
  | ok _ =>
    refine Steady.call_bind trivial fun synced => ?_
    refine Steady.call_bind trivial fun _ => ?_
    cases synced with
    | error errno => exact .throw _
    | ok _ => exact .pure ()

theorem steady_writeAtomic (path : Path) (content : Text) :
    Steady (File.writeAtomic path content) := by
  unfold File.writeAtomic
  refine Steady.call_bind trivial fun name => ?_
  refine Steady.call_bind trivial fun created => ?_
  cases created with
  | error errno => exact .throw _
  | ok _ =>
    refine (steady_writeAll _ _ _).bind fun _ => ?_
    refine Steady.call_bind trivial fun synced => ?_
    cases synced with
    | error errno => exact steady_abandon _ _ _
    | ok _ =>
      refine Steady.call_bind trivial fun closed => ?_
      cases closed with
      | error errno => exact Steady.call_bind trivial fun _ => .throw _
      | ok _ =>
        refine Steady.call_bind trivial fun renamed => ?_
        cases renamed with
        | error errno => exact Steady.call_bind trivial fun _ => .throw _
        | ok _ => exact steady_syncDirectory _

def server : Server World Machine where
  Admits _ _ := True
  Serves r m reply m' := serve r m = (reply, m')

/-- What a program does that is alone with the files of a folder, it does on a machine. -/
theorem ensures_of_alone {ε α : Type} {start : Disk} {path : Path} {files : Files} {m : Machine}
    {I : Files → Prop} {p : Program World ε α} {Q : Except ε α → Files → Prop}
    (h : Ensures ((World.alone path.Beside True).guarded I) p files Q)
    (hholds : start.Holds path files m.disk) :
    Ensures (server.guarded fun m => ∃ files, start.Holds path files m.disk ∧ I files) p m
      fun outcome m' => ∃ files', start.Holds path files' m'.disk ∧ Q outcome files' := by
  refine h.simulate (fun files (m : Machine) => start.Holds path files m.disk) ?_ ?_ hholds
  . exact fun _ files m hholds hadmits => ⟨⟨files, hholds, hadmits.1⟩, trivial⟩
  . intro r files m reply m' hholds hadmits hserves
    have hsettles := serve_settles hholds hadmits.2
    rw [show serve r m = (reply, m') from hserves] at hsettles
    exact hsettles

theorem server_serves (r : World.Request) (m : Machine) :
    server.Serves r m (serve r m).1 (serve r m).2 := rfl

/--
The replacement of a file on any machine, whatever its system calls do. At every moment the file
reads as before or has the new content. It has the new content if the replacement succeeds, and also
if all that fails is to force the directory to disk; if anything fails before, it is as it was. No
other place changes, so that no temporary file is left. Interruptions of writes make no difference
to the outcome or to the disk.
-/
theorem replacement_is_old_or_new (m : Machine) {path : Path} (hpath : 0 ∉ path) (content : Text) :
    let replace := File.writeAtomic path content
    let outcome := (m.run replace).1
    let m' := (m.run replace).2
    (∀ moment ∈ replace.states serve m,
      moment.disk.read path = m.disk.read path ∨ moment.disk.read path = .ok (some content)) ∧
    (outcome = .ok () → m'.disk.read path = .ok (some content)) ∧
    (∀ e, outcome = .error e → File.Unsynced path e → m'.disk.read path = .ok (some content)) ∧
    (∀ e, outcome = .error e → ¬ File.Unsynced path e → m'.disk.read path = m.disk.read path) ∧
    (∀ place, m'.disk.look place = m.disk.look place ∨ m.disk.leadsTo path = some place) ∧
    (m.calm.run replace).1 = outcome ∧ (m.calm.run replace).2.disk = m'.disk := by
  intro replace outcome m'
  have hself := Path.beside_self hpath
  have hensures := ensures_of_alone (File.writeAtomic_alone hself content m.disk.file?)
    (m.disk.holds_self path)
  have hmoments : ∀ moment ∈ replace.states serve m,
      moment.disk.read path = m.disk.read path ∨ moment.disk.read path = .ok (some content) := by
    intro moment hmoment
    refine (Ensures.of_mem_states server_serves (hensures.mono ?_) hmoment).elim ?_
    . rintro outcome m' ⟨files', hholds, hrenewed⟩
      exact ⟨files', hholds, hrenewed.old_or_new⟩
    . rintro files ⟨hholds, hfiles⟩
      exact hfiles.imp (hholds.read_eq hself) (hholds.read_of_some hself)
  obtain ⟨files', hholds, hrenewed⟩ : ∃ files', m.disk.Holds path files' m'.disk ∧
      File.Renewed path content m.disk.file? outcome files' :=
    hensures.run fun r m _ => server_serves r m
  have hcalm : m.calm.run replace = (outcome, m'.calm) := steady_writeAtomic path content m
  refine ⟨hmoments, ?_, ?_, ?_, ?_, by rw [hcalm], by rw [hcalm]; rfl⟩
  . intro hok
    rw [hok] at hrenewed
    cases hrenewed
    exact hholds.read_of_some hself (Files.set_same _ _ _)
  . intro e herror he
    rw [herror] at hrenewed
    cases hrenewed with
    | unsynced => exact hholds.read_of_some hself (Files.set_same _ _ _)
    | refused hnot => exact absurd he hnot
  . intro e herror hnot
    rw [herror] at hrenewed
    cases hrenewed with
    | unsynced he => exact absurd he hnot
    | refused => exact hholds.read_eq hself rfl
  . intro place
    cases hholds.look_eq_or place with
    | inl hsame => exact .inl hsame
    | inr hchanged =>
      obtain ⟨q, hq, hleads, hne⟩ := hchanged
      right
      suffices hqpath : q = path by rw [← hqpath]; exact hleads
      by_contra hother
      exact hne (hrenewed.of_ne hother)

def plain (disk : Disk) (plan : Plan) : Machine :=
  ⟨disk, 0, 0, none, 1, [], [], 0, ⟨.off, false, false⟩, plan, .none, .none⟩

theorem eq_ok_of_isOk {ε : Type} {outcome : Except ε Unit} (h : outcome.isOk = true) :
    outcome = .ok () := by
  cases outcome with
  | error e => cases h
  | ok _ => rfl

/-- A replacement whose text is written in parts with interruptions between them. -/
theorem replacement_of_interrupted_writes :
    let path := ascii "a"
    let content := ascii "new text"
    let plan : Plan := { Plan.none with
      write := [.fail .interrupted, .short 2, .fail .interrupted, .fail .interrupted, .short 1] }
    let m := plain ⟨.file path (ascii "old") .empty⟩ plan
    0 ∉ path ∧ (m.run (File.writeAtomic path content)).1 = .ok () ∧
      (m.run (File.writeAtomic path content)).2.disk.read path = .ok (some content) ∧
      ∀ place, (m.run (File.writeAtomic path content)).2.disk.look place = m.disk.look place ∨
        m.disk.leadsTo path = some place := by
  intro path content plan m
  have hpath : 0 ∉ path := by decide
  have hok : (m.run (File.writeAtomic path content)).1 = .ok () :=
    eq_ok_of_isOk (by decide +kernel)
  obtain ⟨_, hdone, _, _, hplaces, _⟩ := replacement_is_old_or_new m hpath content
  exact ⟨hpath, hok, hdone hok, hplaces⟩

end Machine

end SchemaMigration

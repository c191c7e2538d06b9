import SchemaMigration.Machine.Machine
import SchemaMigration.Proofs.Decimal
import SchemaMigration.Proofs.Machine.Alone
import SchemaMigration.Proofs.Machine.Alteration

/-!
This module contains that a machine serves a program which keeps to the files of one folder as one
that is alone with them, whatever system calls are planned to fail.
-/

namespace SchemaMigration

def Text.Plain (t : Text) : Prop := ∀ b ∈ t, b ≠ 0 ∧ b ≠ byte '/'

instance (t : Text) : Decidable t.Plain := List.decidableBAll (fun b => b ≠ 0 ∧ b ≠ byte '/') t

theorem Text.Plain.append {t u : Text} (ht : t.Plain) (hu : u.Plain) : Text.Plain (t ++ u) := by
  intro b hb
  cases List.mem_append.mp hb with
  | inl h => exact ht b h
  | inr h => exact hu b h

theorem Machine.nameOf_plain (n : Nat) : (nameOf n).Plain := by
  refine Text.Plain.append (by decide) (Text.Plain.append ?_ ?_)
  . intro b hb
    rw [List.eq_of_mem_replicate hb]
    decide
  . intro b hb
    have hdigit := Text.isDigit_of_mem_ofNat b hb
    constructor
    . rintro rfl
      cases hdigit
    . rintro rfl
      cases hdigit

namespace Path

variable {path q : Path} {s : Text}

/-- A path to a file in the folder of another one. A path has no zero byte. -/
structure Beside (path q : Path) : Prop where
  folder_eq : q.folder = path.folder
  zero_not_mem : 0 ∉ q

theorem beside_self (h : 0 ∉ path) : path.Beside path := ⟨rfl, h⟩

theorem Beside.append (h : path.Beside q) (hs : s.Plain) : path.Beside (q ++ s) where
  folder_eq := by
    rw [folder_append fun hslash => (hs _ hslash).2 rfl]
    exact h.folder_eq
  zero_not_mem := by
    rw [List.mem_append, not_or]
    exact ⟨h.zero_not_mem, fun hzero => (hs _ hzero).1 rfl⟩

theorem Beside.temporaryPath (h : path.Beside q) {name : Text} (hname : name.Plain) :
    path.Beside (File.temporaryPath q name) := by
  have hfirst : Text.Plain (byte '.' :: name) :=
    Text.Plain.append (t := [byte '.']) (by decide) hname
  exact (h.append hfirst).append (by decide)

end Path

namespace Disk

variable {start d d' : Disk} {path p : Path} {files : Files} {content? : Option Text}

/-- A disk has some files in a folder, and else what there was at the start. -/
structure Holds (start : Disk) (path : Path) (files : Files) (d : Disk) : Prop where
  sameDirectories : start.SameDirectories d
  file?_eq : ∀ q, path.Beside q → d.file? q = files q
  look_eq : ∀ place, (∀ q, path.Beside q → start.leadsTo q ≠ some place) →
    d.look place = start.look place

theorem holds_self (d : Disk) (path : Path) : d.Holds path d.file? d where
  sameDirectories := .refl d
  file?_eq _ _ := rfl
  look_eq _ _ := rfl

theorem Holds.alters (h : start.Holds path files d) (hp : path.Beside p)
    (halters : d.Alters p content? d') : start.Holds path (files.set p content?) d' where
  sameDirectories := h.sameDirectories.trans halters.sameDirectories
  file?_eq q hq := by
    rw [halters.file?_eq hp.zero_not_mem hq.zero_not_mem (hp.folder_eq.trans hq.folder_eq.symm),
      h.file?_eq q hq]
    rfl
  look_eq place hplace := by
    rw [halters.look_eq, h.look_eq place hplace]
    rw [leadsTo_congr h.sameDirectories]
    exact hplace p hp

/-- A disk that holds other files in a folder differs only where these are. -/
theorem Holds.look_eq_or (h : start.Holds path files d) (place : Place) :
    d.look place = start.look place ∨
      ∃ q, path.Beside q ∧ start.leadsTo q = some place ∧ files q ≠ start.file? q := by
  by_cases hplace : ∃ q, path.Beside q ∧ start.leadsTo q = some place
  . obtain ⟨q, hq, hleads⟩ := hplace
    by_cases hsame : files q = start.file? q
    . left
      apply look_congr h.sameDirectories hleads
      rw [h.file?_eq q hq, hsame]
    . exact .inr ⟨q, hq, hleads, hsame⟩
  . left
    apply h.look_eq
    intro q hq hleads
    exact hplace ⟨q, hq, hleads⟩

theorem Holds.read_eq (h : start.Holds path files d) (hp : path.Beside p)
    (hsame : files p = start.file? p) : d.read p = start.read p := by
  apply read_congr h.sameDirectories
  rw [h.file?_eq p hp, hsame]

theorem Holds.read_of_some (h : start.Holds path files d) (hp : path.Beside p) {content : Text}
    (hfile : files p = some content) : d.read p = .ok (some content) := by
  apply read_of_file?
  rw [h.file?_eq p hp, hfile]

end Disk

namespace Machine

variable {start : Disk} {path p : Path} {files : Files} {m : Machine}

open World (Settles)

def planned (m : Machine) (outcome : Outcome) (change : Except Errno Disk) :
    Except Errno Unit × Machine :=
  match replyOf outcome with
  | .error errno => (.error errno, m)
  | .ok () => m.onDisk change

theorem rename_eq_planned (m : Machine) (source target : Path) :
    m.rename source target =
      planned { m with plan := { m.plan with rename := (next m.plan.rename).2 } }
        (next m.plan.rename).1 (m.disk.rename source target) := rfl

theorem link_eq_planned (m : Machine) (source target : Path) :
    m.link source target =
      planned { m with plan := { m.plan with link := (next m.plan.link).2 } }
        (next m.plan.link).1 (m.disk.link source target) := rfl

theorem planned_eq (m : Machine) (outcome : Outcome) (change : Except Errno Disk) :
    (∃ errno, m.planned outcome change = (.error errno, m)) ∨
      ∃ disk, change = .ok disk ∧ m.planned outcome change = (.ok (), { m with disk }) := by
  unfold planned
  cases replyOf outcome with
  | error errno => exact .inl ⟨errno, rfl⟩
  | ok _ =>
    cases change with
    | error errno => exact .inl ⟨errno, rfl⟩
    | ok disk => exact .inr ⟨disk, rfl, rfl⟩

theorem write_settles (h : start.Holds path files m.disk) (hp : path.Beside p)
    (hfile : files p ≠ none) (data : Text) :
    ∃ files', Settles path.Beside True (.write p data) (m.write p data).1 files files' ∧
      start.Holds path files' (m.write p data).2.disk := by
  obtain ⟨content, hcontent⟩ := Option.ne_none_iff_exists'.mp hfile
  unfold write
  generalize next m.plan.write = planned
  obtain ⟨outcome, rest⟩ := planned
  dsimp only
  cases taken data outcome with
  | error errno => exact ⟨files, ⟨trivial, rfl⟩, h⟩
  | ok count =>
    have hdisk : m.disk.file? p = some content := by rw [h.file?_eq p hp, hcontent]
    obtain ⟨d', hd', halters⟩ := Disk.append_alters hdisk (data.take count)
    dsimp only
    rw [hd']
    exact ⟨_, ⟨content, hcontent, rfl⟩, h.alters hp halters⟩

theorem writeStream_settles (h : start.Holds path files m.disk) (hp : path.Beside p)
    (hfile : files p ≠ none) (text : Text) :
    ∃ files', Settles path.Beside True (.writeStream p text) (m.writeStream p text).1 files files' ∧
      start.Holds path files' (m.writeStream p text).2.disk := by
  obtain ⟨content, hcontent⟩ := Option.ne_none_iff_exists'.mp hfile
  unfold writeStream
  generalize next m.plan.stream = planned
  obtain ⟨outcome, rest⟩ := planned
  dsimp only
  cases hput : m.disk.put p (streamed text outcome) with
  | error errno => exact ⟨files, ⟨trivial, content, (Files.set_eq_self hcontent).symm⟩, h⟩
  | ok d' =>
    refine ⟨_, ?_, h.alters hp (Disk.put_alters hput)⟩
    cases hall : streamed text outcome == text with
    | true =>
      rw [eq_of_beq hall]
      rfl
    | false => exact ⟨trivial, _, rfl⟩

theorem rename_settles (h : start.Holds path files m.disk) {source target : Path}
    (hsource : path.Beside source) (htarget : path.Beside target) :
    ∃ files', Settles path.Beside True (.rename source target) (m.rename source target).1 files
        files' ∧ start.Holds path files' (m.rename source target).2.disk := by
  rw [rename_eq_planned]
  obtain ⟨errno, hplanned⟩ | ⟨d', hrename, hplanned⟩ := planned_eq _ _ _
  . rw [hplanned]
    exact ⟨files, ⟨trivial, rfl⟩, h⟩
  . rw [hplanned]
    obtain ⟨content, d₁, hcontent, hgone, hnew⟩ := Disk.rename_alters hrename
    rw [h.file?_eq source hsource] at hcontent
    exact ⟨_, ⟨content, hcontent, rfl⟩, (h.alters hsource hgone).alters htarget hnew⟩

theorem link_settles (h : start.Holds path files m.disk) {source target : Path}
    (hsource : path.Beside source) (htarget : path.Beside target) :
    ∃ files', Settles path.Beside True (.link source target) (m.link source target).1 files
        files' ∧ start.Holds path files' (m.link source target).2.disk := by
  rw [link_eq_planned]
  obtain ⟨errno, hplanned⟩ | ⟨d', hlink, hplanned⟩ := planned_eq _ _ _
  . rw [hplanned]
    exact ⟨files, ⟨.inl trivial, rfl⟩, h⟩
  . rw [hplanned]
    obtain ⟨content, hcontent, habsent, hnew⟩ := Disk.link_alters hlink
    rw [h.file?_eq source hsource] at hcontent
    rw [h.file?_eq target htarget] at habsent
    exact ⟨_, ⟨content, hcontent, habsent, rfl⟩, h.alters htarget hnew⟩

/-- Whatever is planned, a request has one of the effects that it has on files of one's own. -/
theorem serve_settles (h : start.Holds path files m.disk) {r : World.Request}
    (hr : World.Keeps path.Beside r files) :
    ∃ files', Settles path.Beside True r (serve r m).1 files files' ∧
      start.Holds path files' (serve r m).2.disk := by
  cases r with
  | read p =>
    refine ⟨files, ⟨rfl, ?_⟩, h⟩
    rw [← h.file?_eq p hr]
    exact (m.disk.read_eq_file? p).imp id fun hnone => ⟨trivial, hnone⟩
  | create p =>
    simp only [serve, onDisk]
    cases hcreate : m.disk.create p with
    | error errno => exact ⟨files, ⟨.inl trivial, rfl⟩, h⟩
    | ok d' =>
      obtain ⟨habsent, halters⟩ := Disk.create_alters hcreate
      rw [h.file?_eq p hr] at habsent
      exact ⟨_, ⟨habsent, rfl⟩, h.alters hr halters⟩
  | write p data => exact write_settles h hr.1 hr.2 data
  | rename source target => exact rename_settles h hr.1.1 hr.2
  | remove p =>
    obtain ⟨content, hcontent⟩ := Option.ne_none_iff_exists'.mp hr.2
    rw [← h.file?_eq p hr.1] at hcontent
    obtain ⟨d', hd', halters⟩ := Disk.remove_alters hcontent
    simp only [serve, onDisk]
    rw [hd']
    exact ⟨_, ⟨rfl, rfl⟩, h.alters hr.1 halters⟩
  | openStream p =>
    simp only [serve, openStream]
    cases hput : m.disk.put p [] with
    | error errno => exact ⟨files, ⟨trivial, rfl⟩, h⟩
    | ok d' => exact ⟨_, rfl, h.alters hr (Disk.put_alters hput)⟩
  | writeStream p text => exact writeStream_settles h hr.1 hr.2 text
  | link source target => exact link_settles h hr.1.1 hr.2
  | openGuard p =>
    simp only [serve, onDisk]
    cases htouch : m.disk.touch p with
    | error errno => exact ⟨files, ⟨trivial, rfl⟩, h⟩
    | ok d' =>
      have halters := Disk.touch_alters htouch
      rw [h.file?_eq p hr] at halters
      exact ⟨_, rfl, h.alters hr halters⟩
  | sync | close | syncDirectory | closeDirectory | lockGuard | closeGuard =>
    exact ⟨files, ⟨.inr trivial, rfl⟩, h⟩
  | openDirectory p =>
    refine ⟨files, ⟨.inr trivial, rfl⟩, ?_⟩
    simp only [serve]
    split
    . exact h
    . exact h
    . exact h
  | freshName =>
    exact ⟨files, ⟨fun p hp => hp.temporaryPath (nameOf_plain m.names), rfl⟩, h⟩
  | log entry =>
    refine ⟨files, rfl, ?_⟩
    simp only [serve, log]
    split
    . exact h
    . exact h
  | hostName | processId | isAlive | now | ticks | interruptions | openLog => exact ⟨files, rfl, h⟩
  | isPresent | isDirectory | list | size | makeDirectories | wait | sleep | connect | transaction
  | disconnect => cases hr

end Machine

end SchemaMigration

import SchemaMigration.Proofs.Observation
import SchemaMigration.Proofs.Replacement

/-!
This module contains the files of a program that is alone with them. Nobody else changes them, so
that a request which fails leaves everything as it was, and the program can clean up behind itself:
the replacement of a file changes that file or nothing.
-/

namespace SchemaMigration

namespace Files

variable {files : Files} {path p : Path}

theorem set_set (files : Files) (path : Path) (content? content?' : Option Text) :
    (files.set path content?).set path content?' = files.set path content?' := by
  funext q
  unfold set
  split
  . rfl
  . rfl

theorem set_eq_self {content? : Option Text} (h : files path = content?) :
    files.set path content? = files := by
  funext q
  unfold set
  split
  . next heq => rw [heq, h]
  . rfl

theorem set_comm (h : p ≠ path) (files : Files) (content? content?' : Option Text) :
    (files.set path content?).set p content?' = (files.set p content?').set path content? := by
  funext q
  unfold set
  split
  . next heq => rw [if_neg (by rw [heq]; exact h)]
  . rfl

end Files

namespace World

/-- The requests of a program that keeps to some files, and knows which of them are there. -/
def Keeps (mine : Path → Prop) : Request → Files → Prop
  | .read p, _ | .create p, _ | .openStream p, _ | .openGuard p, _ => mine p
  | .write p _, files | .writeStream p _, files | .remove p, files => mine p ∧ files p ≠ none
  | .rename source target, files | .link source target, files =>
    (mine source ∧ files source ≠ none) ∧ mine target
  | .isPresent _, _ | .isDirectory _, _ | .list _, _ | .size _, _ | .makeDirectories _, _
  | .wait _, _ | .sleep _, _ | .connect, _ | .transaction _, _ | .disconnect, _ => False
  | _, _ => True

/--
What a request does to files that nobody else changes. It fails only if it `mayFail`, or if there is
a file where none may be, and then it has no effect, except that a text may be written in part.
Something else than a file may be in the way of one that is to be read; it looks like an empty file,
or like none.
-/
def Settles (mine : Path → Prop) (mayFail : Prop) :
    (r : Request) → Reply r → Files → Files → Prop
  | .read p, reply, files, files' =>
    files' = files ∧ (reply = .ok (files p) ∨
      mayFail ∧ files p = none ∧ ∀ content, reply = .ok (some content) → content = [])
  | .create p, .ok (), files, files' => files p = none ∧ files' = files.set p (some [])
  | .create p, .error _, files, files' => (mayFail ∨ files p ≠ none) ∧ files' = files
  | .write p data, .ok count, files, files' =>
    ∃ content, files p = some content ∧ files' = files.set p (some (content ++ data.take count))
  | .write _ _, .error _, files, files' => mayFail ∧ files' = files
  | .rename source target, .ok (), files, files' =>
    ∃ content, files source = some content ∧
      files' = (files.set source none).set target (some content)
  | .rename _ _, .error _, files, files' => mayFail ∧ files' = files
  | .remove p, reply, files, files' => reply = .ok () ∧ files' = files.set p none
  | .openStream p, true, files, files' => files' = files.set p (some [])
  | .openStream _, false, files, files' => mayFail ∧ files' = files
  | .writeStream p content, true, files, files' => files' = files.set p (some content)
  | .writeStream p _, false, files, files' =>
    mayFail ∧ ∃ content, files' = files.set p (some content)
  | .link source target, .ok (), files, files' =>
    ∃ content, files source = some content ∧ files target = none ∧
      files' = files.set target (some content)
  | .link _ target, .error errno, files, files' =>
    (mayFail ∨ files target ≠ none ∧ errno = .alreadyExists) ∧ files' = files
  | .openGuard p, .ok (), files, files' => files' = files.set p (some ((files p).getD []))
  | .openGuard _, .error _, files, files' => mayFail ∧ files' = files
  | .sync _, reply, files, files' | .close _, reply, files, files'
  | .openDirectory _, reply, files, files' | .syncDirectory _, reply, files, files'
  | .closeDirectory _, reply, files, files' | .lockGuard _, reply, files, files'
  | .closeGuard _, reply, files, files' => (reply = .ok () ∨ mayFail) ∧ files' = files
  | .freshName, name, files, files' =>
    (∀ p, mine p → mine (File.temporaryPath p name)) ∧ files' = files
  | _, _, files, files' => files' = files

def alone (mine : Path → Prop) (mayFail : Prop) : Server World Files where
  Admits := Keeps mine
  Serves r files reply files' := Settles mine mayFail r reply files files'

theorem obliging_settles (file : Text) (mayFail : Prop) {r : Request} {files : Files}
    (hr : Keeps (fun _ => True) r files) :
    Settles (fun _ => True) mayFail r (obliging file r files).1 files
      (obliging file r files).2 := by
  cases r with
  | read path => exact ⟨rfl, .inl rfl⟩
  | create path =>
    simp only [obliging]
    cases hpath : files path with
    | none => exact ⟨hpath, rfl⟩
    | some content => exact ⟨.inr (by simp [hpath]), rfl⟩
  | write path data =>
    obtain ⟨content, hcontent⟩ := Option.ne_none_iff_exists'.mp hr.2
    simp only [obliging, hcontent]
    exact ⟨content, hcontent, rfl⟩
  | rename source target =>
    obtain ⟨content, hcontent⟩ := Option.ne_none_iff_exists'.mp hr.1.2
    simp only [obliging, hcontent]
    exact ⟨content, hcontent, rfl⟩
  | link source target =>
    obtain ⟨content, hcontent⟩ := Option.ne_none_iff_exists'.mp hr.1.2
    simp only [obliging, hcontent]
    cases htarget : files target with
    | none => exact ⟨content, hcontent, htarget, rfl⟩
    | some other => exact ⟨.inr ⟨by simp [htarget], rfl⟩, rfl⟩
  | remove path => exact ⟨rfl, rfl⟩
  | sync | close | openDirectory | syncDirectory | closeDirectory | lockGuard | closeGuard =>
    exact ⟨.inl rfl, rfl⟩
  | freshName => exact ⟨fun _ _ => trivial, rfl⟩
  | _ => rfl

end World

namespace File

open Program (Ensures)

variable {path temporary : Path} {mine : Path → Prop} {mayFail : Prop} {I : Files → Prop}
  {files : Files} {content : Text}

theorem readIfExists_alone (hmine : mine path) (files : Files) :
    Ensures (World.alone mine mayFail) (readIfExists path) files fun _ files' =>
      files' = files := by
  unfold readIfExists
  rw [Program.ensures_call_bind]
  refine ⟨hmine, ?_⟩
  rintro reply _ ⟨rfl, _⟩
  cases reply with
  | error errno => rfl
  | ok content? => rfl

/-- A failure before the new content of a file got visible. -/
theorem not_unsynced {action : FileAction} {p : Path} {errno : Errno}
    (hopen : action ≠ .openDirectory) (hsync : action ≠ .syncDirectory) :
    ¬ Unsynced path (.refused action p errno) := by
  rintro ⟨_, h | h⟩
  . exact hopen (Failure.refused.inj h).1
  . exact hsync (Failure.refused.inj h).1

theorem abandon_alone (hmine : mine temporary) (hfile : files temporary ≠ none)
    (hI : ∀ content?, I (files.set temporary content?)) (action : FileAction) (errno : Errno) :
    Ensures ((World.alone mine mayFail).guarded I) (abandon temporary action errno) files
      fun outcome files' => outcome = .error (.refused action temporary errno) ∧
        files' = files.set temporary none := by
  have hfiles : I files := by
    rw [← Files.set_eq_self (show files temporary = _ from rfl)]
    exact hI _
  unfold abandon
  refine ⟨⟨hfiles, trivial⟩, ?_⟩
  rintro _ _ ⟨_, rfl⟩
  refine ⟨⟨hfiles, hmine, hfile⟩, ?_⟩
  rintro _ _ ⟨_, rfl⟩
  exact ⟨rfl, rfl⟩

/-- What a write makes of a file, however often it is interrupted. -/
theorem write_alone (hmine : mine temporary) {written : Text}
    (hwritten : files temporary = some written) (data : Text) (hfiles : I files) :
    Ensures ((World.alone mine mayFail).guarded I)
      (World.uninterrupted (World.call (.write temporary data)) : Program World Failure _) files
      fun outcome files' => ∃ reply, outcome = .ok reply ∧
        match reply with
        | .ok count => files' = files.set temporary (some (written ++ data.take count))
        | .error _ => files' = files := by
  have hfile : files temporary ≠ none := by simp [hwritten]
  refine Program.ensures_uninterrupted (I := (· = files)) ⟨hfiles, trivial⟩ (fun _ _ => id) ?_
  rintro _ rfl
  refine ⟨⟨hfiles, hmine, hfile⟩, fun reply files' hserves => ?_⟩
  cases reply with
  | error errno =>
    obtain ⟨_, rfl⟩ := hserves
    exact ⟨fun _ => rfl, _, rfl, rfl⟩
  | ok count =>
    obtain ⟨content, hcontent, rfl⟩ := hserves
    rw [hwritten, Option.some.injEq] at hcontent
    subst hcontent
    exact ⟨nofun, _, rfl, rfl⟩

/-- A new file is there with the whole text behind what was there before, or it is gone. -/
theorem writeAll_alone (hmine : mine temporary) (fuel : Nat) (data : Text) {written : Text}
    (hwritten : files temporary = some written)
    (hI : ∀ content?, I (files.set temporary content?)) :
    Ensures ((World.alone mine mayFail).guarded I) (writeAll temporary fuel data) files
      fun outcome files' =>
        outcome = .ok () ∧ files' = files.set temporary (some (written ++ data)) ∨
          ∃ errno, outcome = .error (.refused .write temporary errno) ∧
            files' = files.set temporary none := by
  have hfile : files temporary ≠ none := by simp [hwritten]
  induction fuel generalizing data files written with
  | zero =>
    cases data with
    | nil =>
      refine .inl ⟨rfl, ?_⟩
      rw [List.append_nil, Files.set_eq_self hwritten]
    | cons b rest =>
      exact (abandon_alone hmine hfile hI _ _).mono fun _ _ h => .inr ⟨_, h⟩
  | succ fuel ih =>
    cases data with
    | nil =>
      refine .inl ⟨rfl, ?_⟩
      rw [List.append_nil, Files.set_eq_self hwritten]
    | cons b rest =>
      unfold writeAll
      rw [Program.ensures_bind]
      have hfiles : I files := by
        rw [← Files.set_eq_self hwritten]
        exact hI _
      apply (write_alone hmine hwritten (b :: rest) hfiles).mono
      rintro _ files' ⟨reply, rfl, hserves⟩
      cases reply with
      | error errno =>
        obtain rfl := hserves
        exact (abandon_alone hmine hfile hI _ _).mono fun _ _ h => .inr ⟨_, h⟩
      | ok count =>
        obtain rfl := hserves
        apply (ih ((b :: rest).drop count) (Files.set_same _ _ _) ?_ ?_).mono
        . intro outcome files'' h
          simp only [Files.set_set, List.append_assoc, List.take_append_drop] at h
          exact h
        . intro content?
          rw [Files.set_set]
          exact hI content?
        . simp

inductive Renewed (path : Path) (content : Text) (files : Files) :
    Except Failure Unit → Files → Prop
  | done : Renewed path content files (.ok ()) (files.set path (some content))
  | unsynced {e : Failure} (he : Unsynced path e) :
    Renewed path content files (.error e) (files.set path (some content))
  | refused {e : Failure} (he : ¬ Unsynced path e) : Renewed path content files (.error e) files

theorem Renewed.of_ne {outcome : Except Failure Unit} {files' : Files} {q : Path} (hq : q ≠ path)
    (h : Renewed path content files outcome files') : files' q = files q := by
  cases h with
  | done => exact Files.set_of_ne hq _ _
  | unsynced => exact Files.set_of_ne hq _ _
  | refused => rfl

theorem Renewed.old_or_new {outcome : Except Failure Unit} {files' : Files}
    (h : Renewed path content files outcome files') :
    files' path = files path ∨ files' path = some content := by
  cases h with
  | done => exact .inr (Files.set_same _ _ _)
  | unsynced => exact .inr (Files.set_same _ _ _)
  | refused => exact .inl rfl

theorem syncDirectory_alone (hfiles : I files) :
    Ensures ((World.alone mine mayFail).guarded I) (syncDirectory path.parent) files
      fun outcome files' => files' = files ∧ ∀ e, outcome = .error e → Unsynced path e := by
  unfold syncDirectory
  refine ⟨⟨hfiles, trivial⟩, ?_⟩
  rintro opened _ ⟨_, rfl⟩
  cases opened with
  | error errno =>
    refine ⟨rfl, ?_⟩
    rintro _ ⟨⟩
    exact ⟨errno, .inl rfl⟩
  | ok _ =>
    refine ⟨⟨hfiles, trivial⟩, ?_⟩
    rintro synced _ ⟨_, rfl⟩
    refine ⟨⟨hfiles, trivial⟩, ?_⟩
    rintro _ _ ⟨_, rfl⟩
    cases synced with
    | error errno =>
      refine ⟨rfl, ?_⟩
      rintro _ ⟨⟩
      exact ⟨errno, .inr rfl⟩
    | ok _ => exact ⟨rfl, nofun⟩

/--
The replacement of a file changes nothing but the file, and at every moment the file has the old
content or the new one.
-/
theorem writeAtomic_alone (hmine : mine path) (content : Text) (files : Files) :
    Ensures ((World.alone mine mayFail).guarded fun files' =>
        files' path = files path ∨ files' path = some content)
      (writeAtomic path content) files (Renewed path content files) := by
  unfold writeAtomic
  rw [Program.ensures_call_bind]
  refine ⟨⟨.inl rfl, trivial⟩, ?_⟩
  rintro name files ⟨hnames, rfl⟩
  have hne : path ≠ temporaryPath path name := (temporaryPath_ne path name).symm
  have htemporary := hnames path hmine
  generalize temporaryPath path name = temporary at hne htemporary
  have hold : ∀ content?, files.set temporary content? path = files path ∨
      files.set temporary content? path = some content :=
    fun content? => .inl (Files.set_of_ne hne _ _)
  rw [Program.ensures_call_bind]
  refine ⟨⟨.inl rfl, htemporary⟩, ?_⟩
  intro created files' hserves
  cases created with
  | error errno =>
    obtain ⟨_, rfl⟩ := hserves
    exact .refused (not_unsynced nofun nofun)
  | ok _ =>
    obtain ⟨habsent, rfl⟩ := hserves
    -- Whatever goes wrong from here on, without the temporary file everything is as it was.
    have hclean : ∀ content?, (files.set temporary content?).set temporary none = files := by
      intro content?
      rw [Files.set_set, Files.set_eq_self habsent]
    rw [Program.ensures_bind]
    apply (writeAll_alone htemporary _ content (Files.set_same _ _ _) ?_).mono
    . rintro _ _ (⟨rfl, rfl⟩ | ⟨errno, rfl, rfl⟩)
      . rw [List.nil_append, Files.set_set]
        change Ensures _ (World.call (.sync _) >>= _) _ _
        have hfile : files.set temporary (some content) temporary ≠ none := by simp
        rw [Program.ensures_call_bind]
        refine ⟨⟨hold _, trivial⟩, ?_⟩
        rintro synced _ ⟨_, rfl⟩
        cases synced with
        | error errno =>
          apply (abandon_alone htemporary hfile ?_ _ _).mono
          . rintro _ _ ⟨rfl, rfl⟩
            rw [hclean]
            exact .refused (not_unsynced nofun nofun)
          . intro content?
            rw [Files.set_set]
            exact hold content?
        | ok _ =>
          rw [Program.ensures_call_bind]
          refine ⟨⟨hold _, trivial⟩, ?_⟩
          rintro closed _ ⟨_, rfl⟩
          cases closed with
          | error errno =>
            refine ⟨⟨hold _, htemporary, hfile⟩, ?_⟩
            rintro _ _ ⟨_, rfl⟩
            rw [hclean]
            exact .refused (not_unsynced nofun nofun)
          | ok _ =>
            rw [Program.ensures_call_bind]
            refine ⟨⟨hold _, ⟨htemporary, hfile⟩, hmine⟩, ?_⟩
            intro renamed files' hserves
            cases renamed with
            | error errno =>
              obtain ⟨_, rfl⟩ := hserves
              refine ⟨⟨hold _, htemporary, hfile⟩, ?_⟩
              rintro _ _ ⟨_, rfl⟩
              rw [hclean]
              exact .refused (not_unsynced nofun nofun)
            | ok _ =>
              obtain ⟨moved, hmoved, rfl⟩ := hserves
              rw [Files.set_same, Option.some.injEq] at hmoved
              subst hmoved
              rw [hclean]
              apply (syncDirectory_alone (.inr (Files.set_same _ _ _))).mono
              rintro outcome _ ⟨rfl, hfails⟩
              cases outcome with
              | ok _ => exact .done
              | error e => exact .unsynced (hfails e rfl)
      . rw [hclean]
        exact .refused (not_unsynced nofun nofun)
    . intro content?
      rw [Files.set_set]
      exact hold content?

end File

end SchemaMigration

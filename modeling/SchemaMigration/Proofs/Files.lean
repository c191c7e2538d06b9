import SchemaMigration.File
import SchemaMigration.Proofs.Program

/-!
This module contains the files that programs share, and what a request may do to them. Nothing is
assumed about when a request succeeds.
-/

namespace SchemaMigration

abbrev Files := Path → Option Text

namespace Files

def set (files : Files) (path : Path) (content? : Option Text) : Files :=
  fun p => if p = path then content? else files p

@[simp]
theorem set_same (files : Files) (path : Path) (content? : Option Text) :
    files.set path content? path = content? :=
  if_pos rfl

theorem set_of_ne {p path : Path} (h : p ≠ path) (files : Files) (content? : Option Text) :
    files.set path content? p = files p :=
  if_neg h

end Files

namespace World

/--
The effect of a request and its reply on the files. A request that fails has no effect, except that
a text may be written in part unless the write was interrupted.
-/
def Effect : (r : Request) → Reply r → Files → Files → Prop
  | .read path, reply, files, files' =>
    (∀ content?, reply = .ok content? → content? = files path) ∧ files' = files
  | .create path, .ok (), files, files' => files path = none ∧ files' = files.set path (some [])
  | .write path data, .ok count, files, files' =>
    ∃ content, files path = some content ∧
      files' = files.set path (some (content ++ data.take count))
  | .write path _, .error errno, files, files' =>
    ∃ content?, (errno = .interrupted → content? = files path) ∧ files' = files.set path content?
  | .rename source target, .ok (), files, files' =>
    ∃ content, files source = some content ∧
      files' = (files.set source none).set target (some content)
  | .remove path, .ok (), files, files' => files' = files.set path none
  | .openStream path, true, files, files' => files' = files.set path (some [])
  | .writeStream path text, true, files, files' => files' = files.set path (some text)
  | .writeStream path _, false, files, files' => ∃ content?, files' = files.set path content?
  | .link source target, .ok (), files, files' =>
    ∃ content, files source = some content ∧ files target = none ∧
      files' = files.set target (some content)
  | .openGuard path, .ok (), files, files' =>
    files' = files.set path (some ((files path).getD []))
  | _, _, files, files' => files' = files

def Spares (path : Path) : Request → Prop
  | .create p | .write p _ | .remove p | .openStream p | .writeStream p _ | .openGuard p =>
    path ≠ p
  | .rename source target => path ≠ source ∧ path ≠ target
  | .link _ target => path ≠ target
  | _ => True

theorem Effect.spares {path : Path} {r : Request} {reply : Reply r} {files files' : Files}
    (h : Effect r reply files files') (hr : Spares path r) : files' path = files path := by
  cases r with
  | read p =>
    obtain ⟨_, rfl⟩ := h
    rfl
  | create p =>
    match reply, h with
    | .ok (), h =>
      obtain ⟨_, rfl⟩ := h
      exact Files.set_of_ne hr _ _
    | .error _, h => rw [show files' = files from h]
  | write p data =>
    match reply, h with
    | .ok _, h =>
      obtain ⟨_, _, rfl⟩ := h
      exact Files.set_of_ne hr _ _
    | .error _, h =>
      obtain ⟨_, _, rfl⟩ := h
      exact Files.set_of_ne hr _ _
  | rename source target =>
    match reply, h with
    | .ok (), h =>
      obtain ⟨_, _, rfl⟩ := h
      rw [Files.set_of_ne hr.2, Files.set_of_ne hr.1]
    | .error _, h => rw [show files' = files from h]
  | remove p =>
    match reply, h with
    | .ok (), h =>
      rw [show files' = _ from h]
      exact Files.set_of_ne hr _ _
    | .error _, h => rw [show files' = files from h]
  | openStream p =>
    match reply, h with
    | true, h =>
      rw [show files' = _ from h]
      exact Files.set_of_ne hr _ _
    | false, h => rw [show files' = files from h]
  | writeStream p text =>
    match reply, h with
    | true, h =>
      rw [show files' = _ from h]
      exact Files.set_of_ne hr _ _
    | false, h =>
      obtain ⟨_, rfl⟩ := h
      exact Files.set_of_ne hr _ _
  | link source target =>
    match reply, h with
    | .ok (), h =>
      obtain ⟨_, _, _, rfl⟩ := h
      exact Files.set_of_ne hr _ _
    | .error _, h => rw [show files' = files from h]
  | openGuard p =>
    match reply, h with
    | .ok (), h =>
      rw [show files' = _ from h]
      exact Files.set_of_ne hr _ _
    | .error _, h => rw [show files' = files from h]
  | _ => rw [show files' = files from h]

/-- A program that has some files for itself. Others may change any other file at any time. -/
def server (mine : Path → Prop) : Server World Files where
  Admits _ _ := True
  Serves r files reply files' :=
    ∃ edited : Files, (∀ path, mine path → edited path = files path) ∧ Effect r reply edited files'

theorem serves_spares {mine : Path → Prop} {path : Path} {r : Request} {reply : Reply r}
    {files files' : Files} (h : (server mine).Serves r files reply files') (hmine : mine path)
    (hr : Spares path r) : files' path = files path := by
  obtain ⟨edited, hedited, heffect⟩ := h
  rw [heffect.spares hr, hedited path hmine]

def allowing (Allowed : Request → Prop) : Server World Unit where
  Admits r _ := Allowed r
  Serves _ _ _ _ := True

/-- A world in which requests succeed, with some migration files, to run programs in. -/
def obliging (file : Text) : (r : Request) → Files → Reply r × Files
  | .read path, files => (.ok (files path), files)
  | .isPresent _, files => (.ok true, files)
  | .isDirectory _, files => (true, files)
  | .list _, files => (.ok ⟨[(file, true)], List.pairwise_singleton _ file⟩, files)
  | .size path, files => (.ok ((files path).getD []).length, files)
  | .makeDirectories _, files => (.ok true, files)
  | .create path, files =>
    match files path with
    | none => (.ok (), files.set path (some []))
    | some _ => (.error .alreadyExists, files)
  | .write path data, files =>
    match files path with
    | none => (.error .noEntry, files.set path none)
    | some content => (.ok data.length, files.set path (some (content ++ data.take data.length)))
  | .rename source target, files =>
    match files source with
    | none => (.error .noEntry, files)
    | some content => (.ok (), (files.set source none).set target (some content))
  | .remove path, files => (.ok (), files.set path none)
  | .openStream path, files => (true, files.set path (some []))
  | .writeStream path text, files => (true, files.set path (some text))
  | .link source target, files =>
    match files source, files target with
    | some content, none => (.ok (), files.set target (some content))
    | _, _ => (.error .alreadyExists, files)
  | .openGuard path, files => (.ok (), files.set path (some ((files path).getD [])))
  | .sync _, files | .close _, files | .openDirectory _, files | .syncDirectory _, files
  | .closeDirectory _, files | .lockGuard _, files | .closeGuard _, files => (.ok (), files)
  | .hostName, files => (some (ascii "host"), files)
  | .processId, files => (1, files)
  | .isAlive _, files => (true, files)
  | .now, files => (⟨0⟩, files)
  | .ticks, files => (0, files)
  | .wait _, files | .sleep _, files => ((), files)
  | .interruptions, files => (0, files)
  | .freshName, files => (ascii "t", files)
  | .connect, files | .transaction _, files | .disconnect, files => (.ok (), files)
  | .openLog _, files | .log _, files => ((), files)

theorem obliging_serves (file : Text) {mine : Path → Prop} (r : Request) (files : Files) :
    (server mine).Serves r files (obliging file r files).1 (obliging file r files).2 := by
  refine ⟨files, fun _ _ => rfl, ?_⟩
  cases r with
  | read path =>
    refine ⟨?_, rfl⟩
    rintro _ ⟨⟩
    rfl
  | create path =>
    simp only [obliging]
    cases h : files path with
    | none => exact ⟨h, rfl⟩
    | some content => rfl
  | write path data =>
    simp only [obliging]
    cases h : files path with
    | none => exact ⟨none, nofun, rfl⟩
    | some content => exact ⟨content, h, rfl⟩
  | rename source target =>
    simp only [obliging]
    cases h : files source with
    | none => rfl
    | some content => exact ⟨content, h, rfl⟩
  | link source target =>
    simp only [obliging]
    cases hsource : files source with
    | none => rfl
    | some content =>
      cases htarget : files target with
      | none => exact ⟨content, hsource, htarget, rfl⟩
      | some _ => rfl
  | _ => rfl

theorem exec_obliging {ε α : Type} {p : Program World ε α} {file : Text} {files : Files}
    {result : Except ε α × Files} (h : p.run (obliging file) files = result)
    (mine : Path → Prop) : Program.Exec (server mine) p files result.1 result.2 := by
  subst h
  exact Program.Exec.run (obliging_serves file) p files

theorem exists_exec_obliging {ε α : Type} (file : Text) (p : Program World ε α) (files : Files)
    (h : (p.run (obliging file) files).1.isOk = true) (mine : Path → Prop) :
    ∃ a, Program.Exec (server mine) p files (.ok a) (p.run (obliging file) files).2 := by
  have hexec := exec_obliging (show p.run (obliging file) files = _ from rfl) mine
  cases houtcome : (p.run (obliging file) files).1 with
  | error e =>
    rw [houtcome] at h
    cases h
  | ok a =>
    rw [houtcome] at hexec
    exact ⟨a, hexec⟩

end World

namespace Program

variable {ε α β : Type} {Allowed : World.Request → Prop}

def Within (Allowed : World.Request → Prop) (p : Program World ε α) : Prop :=
  Ensures (World.allowing Allowed) p () fun _ _ => True

namespace Within

theorem mono {Allowed' : World.Request → Prop} (himp : ∀ r, Allowed r → Allowed' r)
    {p : Program World ε α} {Q : Except ε α → Prop}
    (h : Ensures (World.allowing Allowed) p () fun outcome _ => Q outcome) :
    Ensures (World.allowing Allowed') p () fun outcome _ => Q outcome := by
  induction p with
  | done a => exact h
  | fail e => exact h
  | ask r next ih => exact ⟨himp r h.1, fun reply _ _ => ih reply (h.2 reply () trivial)⟩

theorem pure (a : α) : Within Allowed (Pure.pure a : Program World ε α) := trivial

theorem throw (e : ε) : Within Allowed (MonadExcept.throw e : Program World ε α) := trivial

theorem ofExcept (outcome : Except ε α) :
    Within Allowed (Program.ofExcept outcome : Program World ε α) := by
  rw [Within, ensures_ofExcept]
  trivial

theorem call {r : World.Request} (h : Allowed r) :
    Within Allowed (World.call r : Program World ε _) :=
  ⟨h, fun _ _ _ => trivial⟩

theorem ensures_bind {p : Program World ε α} {f : α → Program World ε β}
    {Q : Except ε β → Prop} (hp : Within Allowed p)
    (hf : ∀ a, Ensures (World.allowing Allowed) (f a) () fun outcome _ => Q outcome)
    (herror : ∀ e, Q (.error e)) :
    Ensures (World.allowing Allowed) (p >>= f) () fun outcome _ => Q outcome := by
  rw [Program.ensures_bind]
  apply Ensures.mono hp
  intro outcome _ _
  cases outcome with
  | ok a => exact hf a
  | error e => exact herror e

theorem bind {p : Program World ε α} {f : α → Program World ε β} (hp : Within Allowed p)
    (hf : ∀ a, Within Allowed (f a)) : Within Allowed (p >>= f) :=
  hp.ensures_bind hf fun _ => trivial

theorem attempt {p : Program World ε α} (hp : Within Allowed p) : Within Allowed p.attempt := by
  rw [Within, ensures_attempt]
  exact hp

theorem andFinally {p : Program World ε α} {cleanup : Program World ε Unit}
    (hp : Within Allowed p) (hcleanup : Within Allowed cleanup) :
    Within Allowed (p.andFinally cleanup) := by
  rw [Within, ensures_andFinally]
  apply Ensures.mono hp
  intro _ _ _
  apply Ensures.mono hcleanup
  intro outcome _ _
  cases outcome with
  | ok _ => trivial
  | error _ => trivial

theorem mapM {f : α → Program World ε β} (h : ∀ a, Within Allowed (f a))
    (items : List α) : Within Allowed (items.mapM f) := by
  suffices hloop : ∀ done, Within Allowed (List.mapM.loop f items done) from hloop []
  induction items with
  | nil => exact fun _ => Within.pure _
  | cons item items ih => exact fun done => Within.bind (h item) fun b => ih (b :: done)

theorem pause {millis : Int} (h : Allowed (.sleep millis)) :
    Within Allowed (World.pause millis : Program World ε Unit) := by
  unfold World.pause
  split
  . exact Within.call h
  . exact Within.pure _

theorem restart {attempt : Program World ε (Except Errno α)} (h : Within Allowed attempt)
    (bound : Nat) : Within Allowed (World.restart attempt bound) := by
  induction bound with
  | zero => exact h
  | succ bound ih =>
    unfold World.restart
    refine Within.bind h fun reply => ?_
    split
    . exact ih
    . exact Within.pure _

theorem uninterrupted {attempt : Program World ε (Except Errno α)}
    (hask : Allowed .interruptions) (h : Within Allowed attempt) :
    Within Allowed (World.uninterrupted attempt) :=
  Within.bind (Within.call hask) fun bound => Within.restart h bound

theorem serveBy {σ : Interface} {C : Type} (inv : C → Prop)
    {serve : (r : σ.Request) → C → Program World ε (σ.Reply r × C)}
    (hserve : ∀ r c, inv c → Ensures (World.allowing Allowed) (serve r c) () fun outcome _ =>
      ∀ reply c', outcome = .ok (reply, c') → inv c')
    (p : Program σ ε α) {c : C} (hc : inv c) : Within Allowed (p.serveBy serve c) := by
  induction p generalizing c with
  | done a => trivial
  | fail e => trivial
  | ask r next ih =>
    change Within Allowed (serve r c >>= _)
    rw [Within, Program.ensures_bind]
    apply (hserve r c hc).mono
    intro outcome _ hinv
    cases outcome with
    | error e => trivial
    | ok result => exact ih result.1 (hinv result.1 result.2 rfl)

end Within

abbrev Spares (path : Path) (p : Program World ε α) : Prop := Within (World.Spares path) p

/-- A program that spares a file leaves it as it is. -/
theorem Ensures.spares {path : Path} {mine : Path → Prop} {p : Program World ε α}
    {Q : Except ε α → Prop}
    (h : Ensures (World.allowing (World.Spares path)) p () fun outcome _ => Q outcome)
    (hmine : mine path) (files : Files) :
    Ensures (World.server mine) p files fun outcome files' =>
      Q outcome ∧ files' path = files path := by
  induction p generalizing files with
  | done a => exact ⟨h, rfl⟩
  | fail e => exact ⟨h, rfl⟩
  | ask r next ih =>
    refine ⟨trivial, ?_⟩
    intro reply files' hserves
    rw [← World.serves_spares hserves hmine h.1]
    exact ih reply (h.2 reply () trivial) files'

end Program

open Program (Within)

def World.Reads : Request → Prop
  | .read _ | .isDirectory _ | .list _ | .size _ => True
  | _ => False

theorem World.Reads.spares {r : Request} (h : Reads r) (path : Path) : Spares path r := by
  cases r with
  | read | isDirectory | list | size => trivial
  | _ => cases h

theorem File.temporaryPath_ne (path : Path) (name : Text) :
    File.temporaryPath path name ≠ path := by
  intro h
  have := congrArg List.length h
  simp [File.temporaryPath] at this

theorem File.readIfExists_within {Allowed : World.Request → Prop} {path : Path}
    (h : Allowed (.read path)) : Within Allowed (File.readIfExists path) := by
  unfold File.readIfExists
  refine Within.bind (Within.call h) fun reply => ?_
  cases reply with
  | ok content? => exact Within.pure _
  | error fault => exact Within.throw _

theorem File.read_reads (path : Path) : Within World.Reads (File.read path) := by
  unfold File.read
  refine Within.bind (File.readIfExists_within trivial) fun content? => ?_
  cases content? with
  | some content => exact Within.pure _
  | none => exact Within.throw _

end SchemaMigration

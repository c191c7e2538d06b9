import SchemaMigration.Proofs.Files

/-!
This module contains the correctness of the replacement of a file: a program that has the file and
its temporary files for itself leaves the new content if it does not fail, and the old one if it
fails before the rename. Behind the rename only the directory is left to be forced to disk.
-/

namespace SchemaMigration.File

open Program (Ensures Within)

def Owns (path p : Path) : Prop := p = path ∨ ∃ name, p = temporaryPath path name

theorem owns_self (path : Path) : Owns path path := Or.inl rfl

theorem owns_temporaryPath (path : Path) (name : Text) : Owns path (temporaryPath path name) :=
  Or.inr ⟨name, rfl⟩

variable {path temporary : Path} {mine : Path → Prop} {files : Files}

theorem abandon_spares (h : path ≠ temporary) (action : FileAction) (errno : Errno) :
    Ensures (World.allowing (World.Spares path)) (abandon temporary action errno) ()
      fun outcome _ => outcome ≠ .ok () := by
  unfold abandon
  refine ⟨trivial, fun _ _ _ => ⟨h, fun _ _ _ => ?_⟩⟩
  exact nofun

theorem abandon_ensures (h : path ≠ temporary) (hpath : mine path) (action : FileAction)
    (errno : Errno) (files : Files) {P : Files → Prop} :
    Ensures (World.server mine) (abandon temporary action errno) files fun outcome files' =>
      files' path = files path ∧ (outcome = .ok () → P files') := by
  apply ((abandon_spares h action errno).spares hpath files).mono
  rintro _ _ ⟨hfails, hsame⟩
  exact ⟨hsame, fun hok => absurd hok hfails⟩

/-- An interruption leaves a file as it is, so that the write starts over behind what is there. -/
theorem write_ensures (h : path ≠ temporary) (hpath : mine path) (htemporary : mine temporary)
    (data : Text) {written : Text} (hwritten : files temporary = some written) :
    Ensures (World.server mine)
      (World.uninterrupted (World.call (.write temporary data)) : Program World Failure _) files
      fun outcome files' => files' path = files path ∧
        ∀ count, outcome = .ok (.ok count) →
          files' temporary = some (written ++ data.take count) := by
  let I (files' : Files) : Prop := files' path = files path ∧ files' temporary = some written
  refine Program.ensures_uninterrupted (I := I) trivial ?_ ?_
  . intro _ files' hserves
    exact ⟨World.serves_spares hserves hpath trivial,
      (World.serves_spares hserves htemporary trivial).trans hwritten⟩
  . rintro files₁ ⟨hsame, hwritten₁⟩
    refine ⟨trivial, fun reply files' hserves => ?_⟩
    have hpath' : files' path = files path :=
      (World.serves_spares hserves hpath h).trans hsame
    obtain ⟨edited, hedited, heffect⟩ := hserves
    have htemporary' := (hedited temporary htemporary).trans hwritten₁
    cases reply with
    | error errno =>
      obtain ⟨content?, hinterrupted, rfl⟩ := heffect
      refine ⟨fun herror => ⟨hpath', ?_⟩, hpath', nofun⟩
      cases herror
      rw [Files.set_same, hinterrupted rfl, htemporary']
    | ok count =>
      obtain ⟨content, hcontent, rfl⟩ := heffect
      rw [htemporary', Option.some.injEq] at hcontent
      subst hcontent
      refine ⟨nofun, hpath', ?_⟩
      rintro _ ⟨⟩
      exact Files.set_same _ _ _

theorem writeAll_ensures (h : path ≠ temporary) (hpath : mine path) (htemporary : mine temporary)
    (fuel : Nat) (data : Text) {written : Text} (hwritten : files temporary = some written) :
    Ensures (World.server mine) (writeAll temporary fuel data) files fun outcome files' =>
      files' path = files path ∧
        (outcome = .ok () → files' temporary = some (written ++ data)) := by
  induction fuel generalizing data files written with
  | zero =>
    cases data with
    | nil =>
      refine ⟨rfl, fun _ => ?_⟩
      rw [List.append_nil, hwritten]
    | cons b rest => exact abandon_ensures h hpath _ _ files
  | succ fuel ih =>
    cases data with
    | nil =>
      refine ⟨rfl, fun _ => ?_⟩
      rw [List.append_nil, hwritten]
    | cons b rest =>
      unfold writeAll
      rw [Program.ensures_bind]
      apply (write_ensures h hpath htemporary (b :: rest) hwritten).mono
      rintro outcome files' ⟨hsame, htaken⟩
      rw [← hsame]
      match outcome with
      | .error e => exact ⟨rfl, nofun⟩
      | .ok (.error errno) => exact abandon_ensures h hpath _ _ files'
      | .ok (.ok count) =>
        -- Nobody else writes to the temporary file, so the new bytes follow those written before.
        apply (ih ((b :: rest).drop count) (htaken count rfl)).mono
        rintro outcome files'' ⟨hsame, hall⟩
        refine ⟨hsame, fun hok => ?_⟩
        rw [hall hok, List.append_assoc, List.take_append_drop]

def Unsynced (path : Path) (e : Failure) : Prop :=
  ∃ errno, e = .refused .openDirectory path.parent errno ∨
    e = .refused .syncDirectory path.parent errno

theorem syncDirectory_spares (path p : Path) :
    Ensures (World.allowing (World.Spares p)) (syncDirectory path.parent) () fun outcome _ =>
      ∀ e, outcome = .error e → Unsynced path e := by
  unfold syncDirectory
  refine ⟨trivial, fun opened _ _ => ?_⟩
  cases opened with
  | error errno =>
    rintro _ ⟨⟩
    exact ⟨errno, .inl rfl⟩
  | ok _ =>
    refine ⟨trivial, fun synced _ _ => ⟨trivial, fun _ _ _ => ?_⟩⟩
    cases synced with
    | error errno =>
      rintro _ ⟨⟩
      exact ⟨errno, .inr rfl⟩
    | ok _ => exact nofun

inductive Replaced (path : Path) (old? : Option Text) (content : Text) :
    Except Failure Unit → Files → Prop
  | done {files : Files} (h : files path = some content) : Replaced path old? content (.ok ()) files
  | refused {e : Failure} {files : Files} (h : files path = old?) :
    Replaced path old? content (.error e) files
  | unsynced {e : Failure} {files : Files} (he : Unsynced path e) (h : files path = some content) :
    Replaced path old? content (.error e) files

variable {old? : Option Text} {content : Text} {p : Program World Failure Unit}

theorem Replaced.of_failure
    (hp : Ensures (World.allowing (World.Spares path)) p () fun outcome _ => outcome ≠ .ok ())
    (hmine : mine path) (hold : files path = old?) :
    Ensures (World.server mine) p files (Replaced path old? content) := by
  apply (hp.spares hmine files).mono
  rintro outcome _ ⟨hfails, hsame⟩
  cases outcome with
  | ok _ => exact absurd rfl hfails
  | error e => exact .refused (hsame.trans hold)

theorem Replaced.of_rename (hmine : mine path) (hnew : files path = some content) :
    Ensures (World.server mine) (syncDirectory path.parent) files
      (Replaced path old? content) := by
  apply ((syncDirectory_spares path path).spares hmine files).mono
  rintro outcome _ ⟨hfails, hsame⟩
  cases outcome with
  | ok _ => exact .done (hsame.trans hnew)
  | error e => exact .unsynced (hfails e rfl) (hsame.trans hnew)

theorem writeAtomic_ensures (path : Path) (content : Text) (files : Files) :
    Ensures (World.server (Owns path)) (writeAtomic path content) files
      (Replaced path (files path) content) := by
  -- Until the temporary file gets the name of the file, no request touches the file.
  generalize hold : files path = old?
  have hpath := owns_self path
  unfold writeAtomic
  rw [Program.ensures_call_bind]
  refine ⟨trivial, fun name files hserves => ?_⟩
  replace hold := (World.serves_spares hserves hpath trivial).trans hold
  have htemporary := owns_temporaryPath path name
  have hne : path ≠ temporaryPath path name := (temporaryPath_ne path name).symm
  rw [Program.ensures_call_bind]
  refine ⟨trivial, fun created files hserves => ?_⟩
  replace hold := (World.serves_spares hserves hpath hne).trans hold
  cases created with
  | error errno => exact Replaced.of_failure nofun hpath hold
  | ok _ =>
    obtain ⟨edited, _, _, rfl⟩ := hserves
    rw [Program.ensures_bind]
    apply (writeAll_ensures hne hpath htemporary _ content (Files.set_same _ _ _)).mono
    rintro written files ⟨hsame, hwritten⟩
    replace hold := hsame.trans hold
    cases written with
    | error e => exact .refused hold
    | ok _ =>
      replace hwritten := hwritten rfl
      change Ensures _ (World.call (.sync _) >>= _) _ _
      rw [Program.ensures_call_bind]
      refine ⟨trivial, fun synced files hserves => ?_⟩
      replace hold := (World.serves_spares hserves hpath trivial).trans hold
      replace hwritten := (World.serves_spares hserves htemporary trivial).trans hwritten
      cases synced with
      | error errno => exact Replaced.of_failure (abandon_spares hne _ _) hpath hold
      | ok _ =>
        rw [Program.ensures_call_bind]
        refine ⟨trivial, fun closed files hserves => ?_⟩
        replace hold := (World.serves_spares hserves hpath trivial).trans hold
        replace hwritten := (World.serves_spares hserves htemporary trivial).trans hwritten
        cases closed with
        | error errno => exact Replaced.of_failure ⟨hne, fun _ _ _ => nofun⟩ hpath hold
        | ok _ =>
          rw [Program.ensures_call_bind]
          refine ⟨trivial, fun renamed files hserves => ?_⟩
          obtain ⟨edited, hedited, heffect⟩ := hserves
          cases renamed with
          | error errno =>
            change files = edited at heffect
            subst heffect
            replace hold := (hedited path hpath).trans hold
            exact Replaced.of_failure ⟨hne, fun _ _ _ => nofun⟩ hpath hold
          | ok _ =>
            obtain ⟨written, hedits, rfl⟩ := heffect
            rw [hedited _ htemporary, hwritten, Option.some.injEq] at hedits
            subst hedits
            exact Replaced.of_rename hpath (Files.set_same _ _ _)

def Handles : World.Request → Prop
  | .freshName | .create _ | .write _ _ | .sync _ | .close _ | .rename _ _ | .remove _
  | .openDirectory _ | .syncDirectory _ | .closeDirectory _ | .interruptions => True
  | _ => False

def Lasts : (r : World.Request) → World.Reply r → Prop
  | .openDirectory _, reply | .syncDirectory _, reply => reply.isOk = true
  | _, _ => True

/-- Where a file is replaced, and its directory can be forced to disk if it is to last. -/
def handling (lasting : Prop) : Server World Unit where
  Admits r _ := Handles r
  Serves r _ reply _ := lasting → Lasts r reply

def Settled (path : Path) (lasting : Prop) (outcome : Except Failure Unit) : Prop :=
  ∀ e, outcome = .error e → lasting → ¬ Unsynced path e

section Handling

variable {lasting : Prop}

theorem settled_ok : Settled path lasting (.ok ()) := nofun

theorem settled_refused {action : FileAction} {p : Path} {errno : Errno}
    (hopen : action ≠ .openDirectory) (hsync : action ≠ .syncDirectory) :
    Settled path lasting (.error (.refused action p errno)) := by
  rintro _ ⟨⟩ _ ⟨_, h | h⟩
  . injection h with haction
    exact hopen haction
  . injection h with haction
    exact hsync haction

theorem abandon_handles (temporary : Path) (action : FileAction) (errno : Errno)
    (hopen : action ≠ .openDirectory) (hsync : action ≠ .syncDirectory) :
    Ensures (handling lasting) (abandon temporary action errno) () fun outcome _ =>
      Settled path lasting outcome :=
  ⟨trivial, fun _ _ _ => ⟨trivial, fun _ _ _ => settled_refused hopen hsync⟩⟩

theorem writeAll_handles (temporary : Path) (fuel : Nat) (data : Text) :
    Ensures (handling lasting) (writeAll temporary fuel data) () fun outcome _ =>
      Settled path lasting outcome := by
  induction fuel generalizing data with
  | zero =>
    cases data with
    | nil => exact settled_ok
    | cons b rest => exact abandon_handles temporary .write _ nofun nofun
  | succ fuel ih =>
    cases data with
    | nil => exact settled_ok
    | cons b rest =>
      unfold writeAll
      rw [Program.ensures_bind]
      have hwrite : Ensures (handling lasting)
          (World.uninterrupted (World.call (.write temporary (b :: rest))) :
            Program World Failure _) () fun outcome _ => outcome.isOk = true :=
        Program.ensures_uninterrupted (I := fun _ => True) trivial (fun _ _ _ => trivial)
          fun _ _ => ⟨trivial, fun _ _ _ => ⟨fun _ => trivial, rfl⟩⟩
      apply hwrite.mono
      intro outcome _ hok
      match outcome with
      | .error e => cases hok
      | .ok (.error errno) => exact abandon_handles temporary .write errno nofun nofun
      | .ok (.ok count) => exact ih _

theorem syncDirectory_handles (path directory : Path) :
    Ensures (handling lasting) (syncDirectory directory) () fun outcome _ =>
      Settled path lasting outcome := by
  refine ⟨trivial, fun opened _ hopened => ?_⟩
  cases opened with
  | error errno =>
    rintro _ _ hlasting
    cases hopened hlasting
  | ok _ =>
    refine ⟨trivial, fun synced _ hsynced => ⟨trivial, fun _ _ _ => ?_⟩⟩
    cases synced with
    | error errno =>
      rintro _ _ hlasting
      cases hsynced hlasting
    | ok _ => exact settled_ok

theorem writeAtomic_handles (path : Path) (content : Text) :
    Ensures (handling lasting) (writeAtomic path content) () fun outcome _ =>
      Settled path lasting outcome := by
  refine ⟨trivial, fun name _ _ => ⟨trivial, fun created _ _ => ?_⟩⟩
  cases created with
  | error errno => exact settled_refused nofun nofun
  | ok _ =>
    change Ensures _ (writeAll _ _ _ >>= _) _ _
    rw [Program.ensures_bind]
    apply (writeAll_handles _ _ _).mono
    intro written _ hwritten
    cases written with
    | error e => exact hwritten
    | ok _ =>
      refine ⟨trivial, fun synced _ _ => ?_⟩
      cases synced with
      | error errno => exact abandon_handles _ .sync errno nofun nofun
      | ok _ =>
        refine ⟨trivial, fun closed _ _ => ?_⟩
        cases closed with
        | error errno => exact ⟨trivial, fun _ _ _ => settled_refused nofun nofun⟩
        | ok _ =>
          refine ⟨trivial, fun renamed _ _ => ?_⟩
          cases renamed with
          | error errno => exact ⟨trivial, fun _ _ _ => settled_refused nofun nofun⟩
          | ok _ => exact syncDirectory_handles path path.parent

theorem within_of_handling {α : Type} {p : Program World Failure α}
    {Q : Except Failure α → Unit → Prop} (h : Ensures (handling False) p () Q) :
    Within Handles p := by
  induction p with
  | done a => trivial
  | fail e => trivial
  | ask r next ih => exact ⟨h.1, fun reply _ _ => ih reply (h.2 reply () nofun)⟩

theorem writeAtomic_within (path : Path) (content : Text) :
    Within Handles (writeAtomic path content) :=
  within_of_handling (writeAtomic_handles path content)

end Handling

end SchemaMigration.File

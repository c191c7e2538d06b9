import Mathlib.Data.List.Sort
import SchemaMigration.Migration.Directory
import SchemaMigration.Proofs.Machine.Replacement
import SchemaMigration.Proofs.Migration.FileName

/-!
This module contains what the creation of a migration does on a machine: it adds one file to the
migrations directory, and the listing of this directory has the name of the file in its place.
-/

namespace SchemaMigration

namespace Text

theorem insertDistinct_eq_append {t : Text} {ts : List Text} (h : t ∉ ts) :
    ∃ front back, ts = front ++ back ∧ insertDistinct t ts = front ++ t :: back := by
  induction ts with
  | nil => exact ⟨[], [], rfl, rfl⟩
  | cons u ts ih =>
    rw [List.mem_cons, not_or] at h
    unfold insertDistinct
    rw [if_neg (by simpa using h.1)]
    split
    . exact ⟨[], u :: ts, rfl, rfl⟩
    . obtain ⟨front, back, hts, hinsert⟩ := ih h.2
      exact ⟨u :: front, back, congrArg (u :: ·) hts, congrArg (u :: ·) hinsert⟩

end Text

namespace Machine

def arriving (m : Machine) (content : Text) : Text :=
  streamed content (next m.plan.stream).1

theorem arriving_isPrefix (m : Machine) (content : Text) : m.arriving content <+: content := by
  unfold arriving
  cases (next m.plan.stream).1 with
  | succeed => exact List.prefix_rfl
  | fail errno => exact List.nil_prefix
  | short count => exact List.take_prefix count content

theorem writeStream_of_file? {m : Machine} {path : Path} {old : Text}
    (h : m.disk.file? path = some old) (content : Text) :
    ∃ m', m.writeStream path content = (m.arriving content == content, m') ∧
      m.disk.Alters path (some (m.arriving content)) m'.disk := by
  obtain ⟨disk, hput⟩ := Disk.exists_put_of_file? h (m.arriving content)
  refine ⟨{ m with disk, plan := { m.plan with stream := (next m.plan.stream).2 } }, ?_,
    Disk.put_alters hput⟩
  unfold arriving at hput ⊢
  unfold writeStream
  dsimp only
  rw [hput]

end Machine

namespace Migration

variable {name name' : Text}

def filesAt (d : Disk) (place : Place) : List Text :=
  match d.get? place with
  | some (.directory entries) => fileNames entries.listing
  | _ => []

variable {d d' : Disk} {place : Place} {m m' : Machine} {directory : Path}

theorem filesAt_sorted (d : Disk) (place : Place) : (filesAt d place).Pairwise (· < ·) := by
  unfold filesAt
  split
  . exact fileNames_sorted _
  . exact .nil

theorem mem_filesAt {file : Text} :
    file ∈ filesAt d place ↔ Path.extension file = fileExtension ∧
      ∃ content, d.look (place ++ [file]) = some (some content) := by
  unfold filesAt
  split
  . next entries hentries =>
    have hlook : d.look (place ++ [file]) = ( entries.entry? file).map Node.content? :=
      congrArg _ (Directory.get?_concat hentries file)
    have hfile : (∃ content, d.look (place ++ [file]) = some (some content)) ↔
        ∃ content, entries.entry? file = some (.file content) := by
      rw [hlook]
      cases entries.entry? file with
      | none => simp
      | some node =>
        cases node with
        | file content => simp [Node.content?]
        | directory inner => simp [Node.content?]
    rw [hfile, ← Directory.mem_names, mem_fileNames, and_comm]
    rfl
  . next hentries =>
    constructor
    . intro hmem
      cases hmem
    . rintro ⟨_, content, hlook⟩
      have hplace : d.look place = some none :=
        Directory.look_of_look_concat (ne_of_eq_of_ne hlook (Option.some_ne_none _))
      obtain ⟨entries, hget⟩ := Disk.look_eq_directory.mp hplace
      exact absurd hget (hentries entries)

theorem filesAt_of_not_directory (h : d.look place ≠ some none) : filesAt d place = [] := by
  unfold filesAt
  split
  . next entries hentries => exact absurd (Disk.look_eq_directory.mpr ⟨entries, hentries⟩) h
  . rfl

/-- The listing of a directory. -/
theorem run_listFiles {t : Disk.Target} (hresolve : m.disk.resolve directory = .ok t)
    (hlook : m.disk.look t.place = some none) :
    m.run (listFiles directory) = (.ok (filesAt m.disk t.place), m) := by
  obtain ⟨entries, hentries⟩ := Disk.look_eq_directory.mp hlook
  have hfind := Disk.find_of_directory hresolve hentries
  have hdirectory : m.disk.isDirectory directory = true := by
    unfold Disk.isDirectory
    rw [hfind]
  have hlist : m.disk.list directory = .ok entries.listing := by
    unfold Disk.list
    rw [hfind]
    rfl
  simp only [Machine.run, listFiles, World.call, Program.request, bind, Program.bind, Program.run,
    Machine.serve, hdirectory, hlist, if_true, filesAt, hentries]
  rfl

theorem leadsToDirectory_of_listFiles {files : List Text}
    (h : (m.run (listFiles directory)).1 = .ok files) : m.disk.LeadsToDirectory directory := by
  have hdirectory : m.disk.isDirectory directory = true := by
    rw [← Bool.not_eq_false]
    intro hnot
    simp only [Machine.run, listFiles, World.call, Program.request, bind, Program.bind, Program.run,
      Machine.serve, hnot] at h
    cases h
  exact Disk.leadsToDirectory_of_isDirectory hdirectory

theorem filePath_of_accepted (h : Accepted name) (directory : Path) (now : Moment) :
    filePath directory now.stamp name = .ok (directory.join (fileName now.stamp name)) := by
  have hslash := (isFileName_fileName h now).slash
  unfold filePath
  rw [nameFault?_eq_none_iff.mpr h]
  exact if_neg (by simpa using hslash)

theorem run_isPresent (m : Machine) (path : Path) :
    m.run (isPresent path) =
      match m.disk.find? path with
      | .error errno => (.error (.presenceUnknown path errno), m)
      | .ok found => (.ok found.isSome, m) := by
  simp only [isPresent, Machine.run, World.call, Program.request, bind, Program.bind, Program.run,
    Machine.serve]
  cases m.disk.find? path with
  | error errno => rfl
  | ok found => rfl

inductive WritesNew (m : Machine) (path : Path) (content : Text) :
    Except Failure Unit → Machine → Prop
  | unknown {errno : Errno} (hfind : m.disk.find? path = .error errno) :
    WritesNew m path content (.error (.presenceUnknown path errno)) m
  | refused {node : Node} (hfind : m.disk.find? path = .ok (some node)) :
    WritesNew m path content (.error (.overwriteRefused path)) m
  | notCreated {errno : Errno} (hfind : m.disk.find? path = .ok none)
    (hput : m.disk.put path [] = .error errno) :
    WritesNew m path content (.error (.notCreated path)) m
  | notWritten {m' : Machine} (hfind : m.disk.find? path = .ok none)
    (halters : m.disk.Alters path (some (m.arriving content)) m'.disk)
    (hpart : m.arriving content ≠ content) :
    WritesNew m path content (.error (.notWritten path)) m'
  | written {m' : Machine} (hfind : m.disk.find? path = .ok none)
    (halters : m.disk.Alters path (some (m.arriving content)) m'.disk)
    (hall : m.arriving content = content) : WritesNew m path content (.ok ()) m'

theorem writesNew_of_run {path : Path} {content : Text} {result : Except Failure Unit}
    (h : m.run (writeNew path content) = (result, m')) : WritesNew m path content result m' := by
  have hpresent := run_isPresent m path
  match hfind : m.disk.find? path with
  | .error errno =>
    rw [hfind] at hpresent
    cases h.symm.trans (Program.run_bind_of_error hpresent _)
    exact .unknown hfind
  | .ok (some node) =>
    rw [hfind] at hpresent
    cases h.symm.trans (Program.run_bind_of_ok hpresent _)
    exact .refused hfind
  | .ok none =>
    rw [hfind] at hpresent
    replace h := h.symm.trans (Program.run_bind_of_ok hpresent _)
    cases hput : m.disk.put path [] with
    | error errno =>
      have hopen : m.run (World.call (.openStream path) : Program World Failure Bool) =
          (.ok false, m) := by
        simp only [Machine.run, World.call, Program.request, Program.run, Machine.serve,
          Machine.openStream, hput]
      cases h.trans (Program.run_bind_of_ok hopen _)
      exact .notCreated hfind hput
    | ok disk =>
      have hempty := Disk.put_alters hput
      have hopen : m.run (World.call (.openStream path) : Program World Failure Bool) =
          (.ok true, { m with disk }) := by
        simp only [Machine.run, World.call, Program.request, Program.run, Machine.serve,
          Machine.openStream, hput]
      replace h := h.trans (Program.run_bind_of_ok hopen _)
      obtain ⟨m₁, hstream, halters⟩ :=
        Machine.writeStream_of_file? (m := { m with disk }) hempty.file?_self content
      have hwrite : Machine.run { m with disk }
          (World.call (.writeStream path content) : Program World Failure Bool) =
            (.ok (m.arriving content == content), m₁) :=
        congrArg (fun reply => (Except.ok reply.1, reply.2)) hstream
      replace h := h.trans (Program.run_bind_of_ok hwrite _)
      have halters := hempty.trans halters
      by_cases hall : m.arriving content = content
      . rw [hall, beq_self_eq_true] at h
        cases h
        exact .written hfind halters hall
      . rw [beq_eq_false_iff_ne.mpr hall] at h
        cases h
        exact .notWritten hfind halters hall

theorem run_makeDirectories (m : Machine) (path : Path) :
    m.run (makeDirectories path) =
      match m.disk.makeDirectories path with
      | (.error errno, disk) => (.error (.directoriesNotCreated path errno), { m with disk })
      | (.ok isNew, disk) => (.ok isNew, { m with disk }) := by
  simp only [makeDirectories, Machine.run, World.call, Program.request, bind, Program.bind,
    Program.run, Machine.serve]
  obtain ⟨result, disk⟩ := m.disk.makeDirectories path
  cases result with
  | error errno => rfl
  | ok isNew => rfl

/-- What can come of a migration's creation, once its name has been accepted. -/
theorem run_create_cases (h : Accepted name) {now : Moment} {result : Except Failure Path}
    (hrun : m.run (create directory name now) = (result, m')) :
    let path := directory.join (fileName now.stamp name)
    (∃ errno, m.disk.makeDirectories directory = (.error errno, m'.disk) ∧
      result = .error (.directoriesNotCreated directory errno)) ∨
    ∃ isNew disk written, m.disk.makeDirectories directory = (.ok isNew, disk) ∧
      WritesNew { m with disk } path (template name) written m' ∧
      result = written.map fun _ => path := by
  intro path
  have hpath : filePath directory now.stamp name = .ok path := filePath_of_accepted h directory now
  have hmake := run_makeDirectories m directory
  unfold create at hrun
  rw [hpath] at hrun
  rcases hdirectories : m.disk.makeDirectories directory with ⟨made, disk⟩
  rw [hdirectories] at hmake
  cases made with
  | error errno =>
    cases hrun.symm.trans (Program.run_bind_of_error hmake _)
    exact .inl ⟨errno, rfl, rfl⟩
  | ok isNew =>
    replace hrun := hrun.symm.trans (Program.run_bind_of_ok hmake _)
    rcases hwrite : Machine.run { m with disk } (writeNew path (template name)) with ⟨written, m₁⟩
    have hnew := writesNew_of_run hwrite
    cases written with
    | error e =>
      cases hrun.trans (Program.run_bind_of_error hwrite _)
      exact .inr ⟨isNew, disk, .error e, rfl, hnew, rfl⟩
    | ok _ =>
      cases hrun.trans (Program.run_bind_of_ok hwrite _)
      exact .inr ⟨isNew, disk, .ok (), rfl, hnew, rfl⟩

theorem run_create_of_fault {fault : NameFault} (h : nameFault? name = some fault) (m : Machine)
    (directory : Path) (now : Moment) :
    m.run (create directory name now) = (.error (.badName name fault), m) := by
  unfold create filePath
  rw [h]
  rfl

/-- A new migration file is listed in its place among those that were there. -/
theorem filesAt_of_adds {file content : Text} (hadds : d.Adds directory file content place d')
    (hfile : Path.extension file = fileExtension) :
    filesAt d' place = Text.insertDistinct file (filesAt d place) := by
  have hsorted : (Text.insertDistinct file (filesAt d place)).Pairwise (· < ·) :=
    Text.insertDistinct_sorted (filesAt_sorted d place)
  apply (filesAt_sorted d' place).eq_of_mem_iff hsorted
  intro other
  rw [Text.mem_insertDistinct, mem_filesAt, mem_filesAt]
  by_cases hother : other = file
  . subst hother
    simp [hfile, hadds.present]
  . have hplace : place ++ [other] ≠ place ++ [file] := by simpa using hother
    simp [hother, hadds.look_eq_file_iff hplace]

theorem run_listFiles_of_adds {file content : Text}
    (hadds : m.disk.Adds directory file content place m'.disk)
    (hfile : Path.extension file = fileExtension) :
    ∃ front back, filesAt m.disk place = front ++ back ∧
      m'.run (listFiles directory) = (.ok (front ++ file :: back), m') ∧
      (front ++ file :: back).Pairwise (· < ·) := by
  have hfresh : file ∉ filesAt m.disk place := by
    rw [mem_filesAt, hadds.absent]
    rintro ⟨_, _, hcontent⟩
    cases hcontent
  obtain ⟨front, back, hbefore, hafter⟩ := Text.insertDistinct_eq_append hfresh
  rw [← filesAt_of_adds hadds hfile] at hafter
  obtain ⟨t, hresolve, rfl, hlook⟩ := hadds.directory_eq
  refine ⟨front, back, hbefore, ?_, ?_⟩
  . rw [run_listFiles hresolve hlook, hafter]
  . rw [← hafter]
    exact filesAt_sorted m'.disk t.place

/-- A directory that can be listed is where it is after the creation of directories. -/
theorem filesAt_of_listFiles {files : List Text} {isNew : Bool} {d₁ : Disk} {t : Disk.Target}
    (hmake : m.disk.makeDirectories directory = (.ok isNew, d₁))
    (hresolve : d₁.resolve directory = .ok t)
    (h : (m.run (listFiles directory)).1 = .ok files) : filesAt m.disk t.place = files := by
  have hdirectory := leadsToDirectory_of_listFiles h
  rw [Disk.makeDirectories_of_leadsTo hdirectory] at hmake
  cases hmake
  obtain ⟨t', hresolve', hlook⟩ := hdirectory
  cases hresolve.symm.trans hresolve'
  rw [run_listFiles hresolve hlook] at h
  exact Except.ok.inj h

theorem accepted_of_run_create {path : Path} {now : Moment}
    (h : (m.run (create directory name now)).1 = .ok path) : Accepted name := by
  rw [← nameFault?_eq_none_iff]
  cases hfault : nameFault? name with
  | none => rfl
  | some fault =>
    rw [run_create_of_fault hfault] at h
    cases h

/-- A migration was created: its directory is there, and its file was not. -/
theorem run_create_eq_ok {path : Path} {now : Moment}
    (h : m.run (create directory name now) = (.ok path, m')) :
    path = directory.join (fileName now.stamp name) ∧ ∃ isNew disk,
      m.disk.makeDirectories directory = (.ok isNew, disk) ∧ disk.find? path = .ok none ∧
        disk.Alters path (some (template name)) m'.disk := by
  have haccepted : Accepted name := accepted_of_run_create (congrArg Prod.fst h)
  obtain ⟨_, _, hresult⟩ | ⟨isNew, disk, written, hmake, hnew, hresult⟩ :=
    run_create_cases haccepted h
  . cases hresult
  cases hnew with
  | written hfind halters hall =>
    cases hresult
    rw [hall] at halters
    exact ⟨rfl, isNew, disk, hmake, hfind, halters⟩
  | _ => cases hresult

/-- A place that holds a file only behind the creation of a migration, which was cut short. -/
structure Remains (d : Disk) (path : Path) (content : Text) (place : Place) (d' : Disk) : Prop where
  leadsTo_eq : d'.leadsTo path = some place
  absent : d.look place = none
  content_eq : ∃ start, start <+: content ∧ d'.look place = some (some start)

/--
Where a creation fails, directories may have been created, and a part of the file may have been
written; all else is as it was.
-/
theorem look_of_run_create_eq_error {e : Failure} {now : Moment}
    (h : m.run (create directory name now) = (.error e, m')) (place : Place) :
    (∀ content, m'.disk.look place = some (some content) ↔
      m.disk.look place = some (some content)) ∨
    e = .notWritten (directory.join (fileName now.stamp name)) ∧
      Remains m.disk (directory.join (fileName now.stamp name)) (template name) place m'.disk := by
  cases hfault : nameFault? name with
  | some fault =>
    rw [run_create_of_fault hfault] at h
    cases h
    exact .inl fun _ => Iff.rfl
  | none =>
    obtain ⟨_, hmake, _⟩ | ⟨isNew, disk, written, hmake, hnew, hresult⟩ :=
      run_create_cases (nameFault?_eq_none_iff.mp hfault) h
    . exact .inl fun _ => (Disk.makeDirectories_grows hmake).look_eq_file_iff
    have hgrows := Disk.makeDirectories_grows hmake
    cases hnew with
    | unknown | refused | notCreated => exact .inl fun _ => hgrows.look_eq_file_iff
    | written => cases hresult
    | notWritten hfind halters hpart =>
      cases hresult
      obtain ⟨altered, hleads, hputs⟩ := halters
      by_cases hplace : place = altered
      . subst hplace
        refine .inr ⟨rfl, ?_, ?_, ?_⟩
        . rw [Disk.leadsTo_congr hputs.sameDirectories]
          exact hleads
        . obtain hsame | ⟨hnone, _⟩ := hgrows.look_eq_or place
          . exact hsame.symm.trans (Disk.look_of_find?_none hfind hleads)
          . exact hnone
        . refine ⟨_, Machine.arriving_isPrefix { m with disk } (template name), ?_⟩
          rw [hputs.look_eq, if_pos rfl]
          rfl
      . left
        intro content
        rw [hputs.look_eq, if_neg hplace]
        exact hgrows.look_eq_file_iff

/-- Where the file is there already, no migration is created. -/
theorem run_create_of_file {content : Text} {now : Moment} (h : Accepted name)
    (hdirectory : m.disk.LeadsToDirectory directory)
    (hfile : m.disk.file? (directory.join (fileName now.stamp name)) = some content) :
    m.run (create directory name now) =
      (.error (.overwriteRefused (directory.join (fileName now.stamp name))), m) := by
  obtain ⟨t, hfind⟩ := Disk.find_of_file? hfile
  have hfound : m.disk.find? (directory.join (fileName now.stamp name)) =
      .ok (some (.file content)) := by
    unfold Disk.find?
    rw [hfind]
  have hmake := Disk.makeDirectories_of_leadsTo hdirectory
  rcases hrun : m.run (create directory name now) with ⟨result, m'⟩
  obtain ⟨_, hmake', _⟩ | ⟨_, _, written, hmake', hnew, rfl⟩ := run_create_cases h hrun
  . cases hmake.symm.trans hmake'
  cases hmake.symm.trans hmake'
  cases hnew with
  | refused => rfl
  | unknown hfind | notCreated hfind | notWritten hfind | written hfind =>
    cases hfound.symm.trans hfind

/-- A migration's file that has just been added is not written again. -/
theorem run_create_of_adds {file content : Text} {now : Moment} (h : Accepted name)
    (hfile : fileName now.stamp name = file)
    (hadds : d.Adds directory file content place m.disk) :
    m.run (create directory name now) = (.error (.overwriteRefused (directory.join file)), m) := by
  subst hfile
  obtain ⟨t, hresolve, rfl, hlook⟩ := hadds.directory_eq
  apply run_create_of_file h ⟨t, hresolve, hlook⟩
  rw [Disk.file?_of_leadsTo hadds.leadsTo_eq, hadds.present]
  rfl

theorem exists_run_create_ok {now : Moment} (h : Accepted name)
    (hdirectory : m.disk.LeadsToDirectory directory)
    (hnone : m.disk.find? (directory.join (fileName now.stamp name)) = .ok none)
    (hall : m.arriving (template name) = template name) :
    ∃ m', m.run (create directory name now) =
      (.ok (directory.join (fileName now.stamp name)), m') := by
  have hmake := Disk.makeDirectories_of_leadsTo hdirectory
  rcases hrun : m.run (create directory name now) with ⟨result, m'⟩
  obtain ⟨_, hmake', _⟩ | ⟨_, _, written, hmake', hnew, rfl⟩ := run_create_cases h hrun
  . cases hmake.symm.trans hmake'
  cases hmake.symm.trans hmake'
  cases hnew with
  | written => exact ⟨m', rfl⟩
  | unknown hfind | refused hfind => cases hnone.symm.trans hfind
  | notCreated _ hput =>
    obtain ⟨disk, hput'⟩ := Disk.exists_put_ok (isFileName_fileName h now) hdirectory hnone []
    cases hput.symm.trans hput'
  | notWritten _ _ hpart => exact absurd hall hpart

/--
The creation of a migration fails, and then every file that was there is as it was, or it adds one
file to the directory, which is listed in its place among those that were there before. In the same
second no name with the same normalized form can be used again. The creation does not fail if the
name is accepted, the directory is there, nothing is found under the path and all of the file can be
written. If only a part of it can be written, this part may be left.

The files that were there before are those that were listed, if the directory could be listed, and
none if the directory is new. It may be neither: a path can name a missing directory and leave it
again, and then it leads to a directory that is there as soon as the missing one has been created.
-/
theorem create_adds_file_or_refuses (m : Machine) (directory : Path) (name : Text) (now : Moment) :
    let file := now.stamp ++ byte '_' :: normalized name ++ ascii ".sigl"
    let path := directory.join file
    (∀ e m', m.run (create directory name now) = (.error e, m') →
      (∀ place content, m.disk.look place = some (some content) →
        m'.disk.look place = some (some content)) ∧
      ∀ place content, m'.disk.look place = some (some content) →
        m.disk.look place = some (some content) ∨
          e = .notWritten path ∧ Remains m.disk path (template name) place m'.disk) ∧
    (∀ result m', m.run (create directory name now) = (.ok result, m') →
      result = path ∧ (∀ b ∈ normalized name, isNormal b = true) ∧
      ∃ above, m.disk.Adds directory file (template name) above m'.disk ∧
        (∃ front back, filesAt m.disk above = front ++ back ∧
          m'.run (listFiles directory) = (.ok (front ++ file :: back), m') ∧
          (front ++ file :: back).Pairwise (· < ·)) ∧
        (∀ files, (m.run (listFiles directory)).1 = .ok files → filesAt m.disk above = files) ∧
        (m.disk.look above = none → filesAt m.disk above = []) ∧
        ∀ (m'' : Machine) (name' : Text) (now' : Moment), m''.disk = m'.disk →
          now'.seconds = now.seconds → normalized name' = normalized name →
          m''.run (create directory name' now') = (.error (.overwriteRefused path), m'')) ∧
    (nameFault? name = none → m.disk.isDirectory directory = true → m.disk.find? path = .ok none →
      m.arriving (template name) = template name →
      ∃ m', m.run (create directory name now) = (.ok path, m')) := by
  intro file path
  have hfile : fileName now.stamp name = file := fileName_eq now.stamp name
  refine ⟨?_, ?_, ?_⟩
  . intro e m' hrun
    have hlook := look_of_run_create_eq_error hrun
    rw [hfile] at hlook
    constructor
    . intro place content hcontent
      obtain hsame | ⟨_, hremains⟩ := hlook place
      . exact (hsame content).mpr hcontent
      . cases hcontent.symm.trans hremains.absent
    . intro place content hcontent
      exact (hlook place).imp_left fun hsame => (hsame content).mp hcontent
  . intro result m' hrun
    have haccepted : Accepted name := accepted_of_run_create (congrArg Prod.fst hrun)
    have hname := isFileName_fileName haccepted now
    have hextension := extension_fileName now.stamp name
    obtain ⟨hresult, isNew, disk, hmake, hnone, halters⟩ := run_create_eq_ok hrun
    rw [hfile] at hname hextension hresult
    subst hresult
    obtain ⟨t, hresolve, hadds⟩ := Disk.adds_of_alters hname hmake hnone halters
    refine ⟨rfl, haccepted.isNormal, t.place, hadds, ?_, ?_, ?_, ?_⟩
    . exact run_listFiles_of_adds hadds hextension
    . intro files hfiles
      exact filesAt_of_listFiles hmake hresolve hfiles
    . intro hnew
      exact filesAt_of_not_directory (ne_of_eq_of_ne hnew (Option.some_ne_none _).symm)
    . intro m'' name' now' hsame hseconds hnormalized
      have hfile' : fileName now'.stamp name' = file := by
        rw [fileName_eq, Moment.stamp_congr hseconds, hnormalized]
      have hadds' : m.disk.Adds directory file (template name) t.place m''.disk := by
        rw [hsame]
        exact hadds
      exact run_create_of_adds (haccepted.of_normalized_eq hnormalized) hfile' hadds'
  . intro hfault hdirectory hnone hall
    have haccepted := nameFault?_eq_none_iff.mp hfault
    have hleads := Disk.leadsToDirectory_of_isDirectory hdirectory
    have hpath : directory.join (fileName now.stamp name) = path := congrArg directory.join hfile
    rw [← hpath] at hnone ⊢
    exact exists_run_create_ok haccepted hleads hnone hall

/-- A migration among two others; its name in other words is refused later in the same second. -/
theorem create_adds_file_between_others :
    let m := Machine.plain ⟨.directory (ascii "db")
      (.file (ascii "2.sigl") [] (.file (ascii "1.sigl") [] .empty)) .empty⟩ .none
    let file := ascii "19700101000000_add_users.sigl"
    let path := ascii "db/19700101000000_add_users.sigl"
    ∃ m', m.run (create (ascii "db") (ascii "Add-Users") ⟨0⟩) = (.ok path, m') ∧
      (∃ front back, [ascii "1.sigl", ascii "2.sigl"] = front ++ back ∧
        m'.run (listFiles (ascii "db")) = (.ok (front ++ file :: back), m') ∧
        (front ++ file :: back).Pairwise (· < ·)) ∧
      m'.run (create (ascii "db") (ascii "add_users") ⟨999⟩) =
        (.error (.overwriteRefused path), m') := by
  intro m file path
  obtain ⟨_, hdone, hcreated⟩ :=
    create_adds_file_or_refuses m (ascii "db") (ascii "Add-Users") ⟨0⟩
  have hfile : (⟨0⟩ : Moment).stamp ++ byte '_' :: normalized (ascii "Add-Users") ++
      ascii ".sigl" = file := by
    decide +kernel
  have hpath : Path.join (ascii "db") file = path := by decide +kernel
  rw [hfile, hpath] at hdone hcreated
  have hnone : m.disk.find? path = .ok none := by rfl
  obtain ⟨m', hrun⟩ := hcreated (by decide) (by decide +kernel) hnone rfl
  obtain ⟨_, _, above, _, ⟨front, back, hbefore, hafter, hsorted⟩, hlisted, _, hagain⟩ :=
    hdone path m' hrun
  have hfiles : (m.run (listFiles (ascii "db"))).1 = .ok [ascii "1.sigl", ascii "2.sigl"] := by rfl
  rw [hlisted _ hfiles] at hbefore
  exact ⟨m', hrun, ⟨front, back, hbefore, hafter, hsorted⟩,
    hagain m' (ascii "add_users") ⟨999⟩ rfl (by decide) (by decide)⟩

/--
A directory that cannot be listed before, and that is not empty behind the creation of the missing
one that its path names.
-/
theorem create_behind_missing_directory :
    let m := Machine.plain ⟨.file (ascii "0.sigl") [] .empty⟩ .none
    let directory := ascii "new/.."
    let created := m.run (create directory (ascii "x") ⟨0⟩)
    (m.run (listFiles directory)).1 = .error (.noMigrationsDirectory directory) ∧
      created.1 = .ok (ascii "new/../19700101000000_x.sigl") ∧
      (created.2.run (listFiles directory)).1 =
        .ok [ascii "0.sigl", ascii "19700101000000_x.sigl"] := by
  intro m directory created
  refine ⟨rfl, eq_ok_of_toOption ?_, eq_ok_of_toOption ?_⟩
  . decide +kernel
  . decide +kernel

end Migration

end SchemaMigration

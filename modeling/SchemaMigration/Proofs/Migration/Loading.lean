import Mathlib.Algebra.Order.Ring.Nat
import SchemaMigration.Proofs.Migration.Creation
import SchemaMigration.Proofs.Run.Directory

/-!
This module contains that the migration files of a directory are loaded in the same way in whatever
order the directory is listed, and exactly what happens if the files are larger than the limits.
-/

namespace SchemaMigration

open Program (Ensures Within)

/-- A program that makes only some requests can be run where only these are served as it is said. -/
theorem Program.Within.run {ε α S : Type} {Allowed : World.Request → Prop}
    {server : Server World Unit} {serve : (r : World.Request) → S → World.Reply r × S}
    {Here : S → Prop}
    (hserve : ∀ r s, Allowed r → Here s →
      server.Serves r () (serve r s).1 () ∧ Here (serve r s).2)
    {p : Program World ε α} {Q : Except ε α → Prop} (hp : Within Allowed p)
    (h : Ensures server p () fun outcome _ => Q outcome) {s : S} (hs : Here s) :
    Q (p.run serve s).1 := by
  induction p generalizing s with
  | done a => exact h
  | fail e => exact h
  | ask r next ih =>
    obtain ⟨hshows, hnext⟩ := hserve r s hp.1 hs
    exact ih _ (hp.2 _ () trivial) (h.2 _ () hshows) hnext

/-- Files have an extension if something stands before it. -/
theorem Path.extension_eq_iff {name : Text} :
    Path.extension name = Migration.fileExtension ↔
      ∃ stem, stem ≠ [] ∧ name = stem ++ Migration.fileExtension := by
  have hextension : Migration.fileExtension = byte '.' :: ascii "sigl" := rfl
  rw [hextension]
  constructor
  . intro h
    unfold Path.extension at h
    split at h
    . cases h
    dsimp only at h
    split at h
    . next hlength =>
      have hparts := List.takeWhile_append_dropWhile (p := (· != byte '.')) (l := name.reverse)
      have hpoint := Text.head?_dropWhile_false (· != byte '.') name.reverse
      have htail := (List.cons.inj h).2
      rw [htail] at hlength
      rw [List.reverse_eq_iff.mp htail] at hparts
      -- Backwards, a name is its extension, and behind that what it has before the point.
      generalize name.reverse.dropWhile (· != byte '.') = front at hparts hpoint
      have hname := List.reverse_eq_iff.mp hparts.symm
      subst hname
      cases front with
      | nil => exact absurd hlength (by decide)
      | cons b front =>
        obtain rfl : b = byte '.' := by simpa using hpoint
        refine ⟨front.reverse, ?_, by simp⟩
        intro hnil
        rw [List.reverse_eq_nil_iff.mp hnil] at hlength
        exact absurd hlength (by decide)
    . cases h
  . rintro ⟨stem, hstem, rfl⟩
    exact Migration.extension_append hstem

namespace Migration

/-- The order in which the largest files are named: by decreasing size, and then by name. -/
def Larger (size : Text → Nat) (name name' : Text) : Prop :=
  size name' < size name ∨ size name = size name' ∧ name < name'

theorem Larger.size_le {size : Text → Nat} {name name' : Text} (h : Larger size name name') :
    size name' ≤ size name := by
  obtain hlt | ⟨heq, _⟩ := h
  . exact Nat.le_of_lt hlt
  . exact Nat.le_of_eq heq.symm

theorem Larger.asymm {size : Text → Nat} {name name' : Text} (h : Larger size name name') :
    ¬ Larger size name' name := by
  rintro (hlt | ⟨heq, hname⟩)
  . exact absurd h.size_le (Nat.not_le_of_lt hlt)
  . obtain hlt' | ⟨_, hname'⟩ := h
    . exact absurd heq (Nat.ne_of_lt hlt')
    . exact List.lt_asymm hname hname'

theorem larger_of_le {size : Text → Nat} {name name' : Text} (hle : size name' ≤ size name)
    (hlt : name < name') : Larger size name name' :=
  (Nat.lt_or_eq_of_le hle).imp_right fun heq => ⟨heq.symm, hlt⟩

theorem exists_insertLarger {size : Text → Nat} {entry : Text → Path × Nat}
    (hentry : ∀ name, (entry name).2 = size name) {name : Text} {names : List Text}
    (hsorted : names.Pairwise (Larger size)) (hfirst : ∀ other ∈ names, name < other) :
    ∃ names' : List Text, insertLarger (entry name) (names.map entry) = names'.map entry ∧
      names'.Perm (name :: names) ∧ names'.Pairwise (Larger size) := by
  induction names with
  | nil => exact ⟨[name], rfl, .refl _, List.pairwise_singleton _ _⟩
  | cons other names ih =>
    obtain ⟨hother, hnames⟩ := List.pairwise_cons.mp hsorted
    obtain ⟨hlt, hrest⟩ := List.forall_mem_cons.mp hfirst
    rw [List.map_cons, insertLarger, hentry, hentry]
    split
    . next hle =>
      refine ⟨name :: other :: names, rfl, .refl _, List.pairwise_cons.mpr ⟨?_, hsorted⟩⟩
      intro last hlast
      refine larger_of_le ?_ (hfirst last hlast)
      cases List.mem_cons.mp hlast with
      | inl hsame =>
        rw [hsame]
        exact hle
      | inr hmem => exact Nat.le_trans (hother last hmem).size_le hle
    . next hlarger =>
      obtain ⟨names', hinsert, hperm, hsorted'⟩ := ih hnames hrest
      refine ⟨other :: names', congrArg (entry other :: ·) hinsert, ?_, ?_⟩
      . exact (hperm.cons other).trans (.swap name other names)
      . refine List.pairwise_cons.mpr ⟨fun last hlast => ?_, hsorted'⟩
        cases List.mem_cons.mp (hperm.subset hlast) with
        | inl hsame =>
          rw [hsame]
          exact .inl (Nat.lt_of_not_le hlarger)
        | inr hmem => exact hother last hmem

/-- The largest files are the first ones in the order of their sizes. -/
theorem exists_largest (size : Text → Nat) (entry : Text → Path × Nat)
    (hentry : ∀ name, (entry name).2 = size name) {names : List Text}
    (hnames : names.Pairwise (· < ·)) :
    ∃ names' : List Text, names'.Perm names ∧ names'.Pairwise (Larger size) ∧
      largest (names.map entry) = (names'.take 5).map entry := by
  suffices hsort : ∃ names' : List Text,
      (names.map entry).foldr insertLarger [] = names'.map entry ∧
        names'.Perm names ∧ names'.Pairwise (Larger size) by
    obtain ⟨names', hfold, hperm, hsorted⟩ := hsort
    refine ⟨names', hperm, hsorted, ?_⟩
    rw [largest, hfold, List.map_take]
  induction names with
  | nil => exact ⟨[], rfl, .nil, .nil⟩
  | cons name names ih =>
    obtain ⟨hfirst, hrest⟩ := List.pairwise_cons.mp hnames
    obtain ⟨names', hfold, hperm, hsorted⟩ := ih hrest
    obtain ⟨names'', hinsert, hperm', hsorted'⟩ :=
      exists_insertLarger hentry hsorted fun other hother => hfirst other (hperm.subset hother)
    refine ⟨names'', ?_, hperm'.trans (hperm.cons name), hsorted'⟩
    rw [List.map_cons, List.foldr_cons, hfold, hinsert]

namespace Directory

variable {d d' : Directory} {path : Path} {names : List Text} {limits : Limits}

theorem names_sorted (d : Directory) : d.names.Pairwise (· < ·) := fileNames_sorted d.listing

/-- What the names are does not depend on the order in which the directory is listed. -/
theorem names_congr (h : ∀ entry, entry ∈ d'.listing.entries ↔ entry ∈ d.listing.entries) :
    d'.names = d.names := by
  have hperm : d'.names.Perm d.names := by
    rw [List.perm_ext_iff_of_nodup (Text.nodup_of_sorted d'.names_sorted)
      (Text.nodup_of_sorted d.names_sorted)]
    intro name
    unfold Directory.names
    rw [mem_fileNames, mem_fileNames, h]
  exact hperm.eq_of_pairwise (fun _ _ _ _ hlt hlt' => absurd hlt' (List.lt_asymm hlt))
    d'.names_sorted d.names_sorted

def entry (d : Directory) (path : Path) (name : Text) : Path × Nat := (path.join name, d.size name)

def tooLarge? (d : Directory) (limit : Nat) (names : List Text) : Option Text :=
  names.find? (limit < d.size ·)

def check (d : Directory) (path : Path) (limits : Limits) : Except Failure Unit :=
  match d.tooLarge? limits.maxFile d.names with
  | some name => .error (.fileTooLarge (path.join name) (d.size name) limits.maxFile)
  | none =>
    if limits.maxTotal < d.total d.names then
      .error (.totalTooLarge (d.total d.names) limits.maxTotal d.names.length
        (largest (d.names.map (d.entry path))))
    else .ok ()

theorem readSizes_ensures (limit : Nat) (h : names ⊆ d.names) :
    Ensures (d.server path) (readSizes limit (names.map path.join)) () fun outcome _ =>
      outcome = match d.tooLarge? limit names with
        | some name => .error (.fileTooLarge (path.join name) (d.size name) limit)
        | none => .ok (names.map (d.entry path)) := by
  induction names with
  | nil => rfl
  | cons name names ih =>
    rw [List.cons_subset] at h
    rw [List.map_cons, readSizes, Program.ensures_call_bind, tooLarge?, List.find?_cons]
    refine ⟨trivial, fun size _ hshows => ?_⟩
    rw [hshows name h.1 rfl]
    dsimp only
    split
    . next hlarge =>
      rw [decide_eq_true hlarge]
      rfl
    . next hsmall =>
      rw [decide_eq_false hsmall, Program.ensures_bind]
      apply (ih h.2).mono
      rintro _ _ rfl
      rw [← tooLarge?]
      cases d.tooLarge? limit names with
      | some large => rfl
      | none => rfl

theorem checkSizes_ensures (limits : Limits) (d : Directory) (path : Path) :
    Ensures (d.server path) (checkSizes limits (d.names.map path.join)) () fun outcome _ =>
      outcome = d.check path limits := by
  unfold checkSizes check
  rw [Program.ensures_bind]
  apply (readSizes_ensures limits.maxFile (List.Subset.refl d.names)).mono
  rintro _ _ rfl
  cases d.tooLarge? limits.maxFile d.names with
  | some name => rfl
  | none =>
    have htotal : (d.names.map (d.entry path)).foldl (fun n size => n + size.2) 0 =
        d.total d.names := (foldl_sizes d.names 0).trans (Nat.zero_add _)
    change Ensures _ (ite _ _ _) _ _
    rw [htotal, List.length_map]
    dsimp only
    split
    . rfl
    . rfl

theorem loadFiles_ensures (limits : Limits) (d : Directory) (path : Path) :
    Ensures (d.server path) (loadFiles path limits) () fun outcome _ =>
      outcome = if limits.enabled then (d.check path limits).map fun _ => d.files
        else .ok d.files := by
  have hread := @readFiles_ensures d path d.names (List.Subset.refl d.names)
  unfold loadFiles
  rw [Program.ensures_bind]
  apply (listFiles_ensures d path).mono
  rintro _ _ rfl
  change Ensures _ (ite _ _ _) _ _
  split
  . rw [Program.ensures_bind]
    apply (checkSizes_ensures limits d path).mono
    rintro _ _ rfl
    cases d.check path limits with
    | error e => rfl
    | ok _ => exact hread
  . exact hread

theorem total_eq_sum (names : List Text) : d.total names = (names.map d.size).sum := by
  induction names with
  | nil => rfl
  | cons name names ih =>
    rw [List.map_cons, List.sum_cons, ← ih]
    rfl

theorem check_eq_ok (hfiles : ∀ name ∈ d.names, d.size name ≤ limits.maxFile)
    (htotal : d.total d.names ≤ limits.maxTotal) : d.check path limits = .ok () := by
  have hnone : d.tooLarge? limits.maxFile d.names = none := by
    apply List.find?_eq_none.mpr
    intro name hname
    simpa using hfiles name hname
  rw [check, hnone]
  exact if_neg (Nat.not_lt_of_le htotal)

theorem check_of_file {before after : List Text} {name : Text}
    (hnames : d.names = before ++ name :: after)
    (hbefore : ∀ name ∈ before, d.size name ≤ limits.maxFile)
    (hlarge : limits.maxFile < d.size name) :
    d.check path limits =
      .error (.fileTooLarge (path.join name) (d.size name) limits.maxFile) := by
  have hsome : d.tooLarge? limits.maxFile d.names = some name := by
    rw [hnames]
    apply List.find?_eq_some_iff_append.mpr
    refine ⟨decide_eq_true hlarge, before, after, rfl, fun name hname => ?_⟩
    simpa using hbefore name hname
  rw [check, hsome]

theorem check_of_total (hfiles : ∀ name ∈ d.names, d.size name ≤ limits.maxFile)
    (htotal : limits.maxTotal < d.total d.names) :
    d.check path limits = .error (.totalTooLarge (d.total d.names) limits.maxTotal d.names.length
      (largest (d.names.map (d.entry path)))) := by
  have hnone : d.tooLarge? limits.maxFile d.names = none := by
    apply List.find?_eq_none.mpr
    intro name hname
    simpa using hfiles name hname
  rw [check, hnone]
  exact if_pos htotal

theorem files_congr (hnames : d'.names = d.names)
    (hcontent : ∀ name ∈ d.names, d'.content name = d.content name) : d'.files = d.files := by
  unfold files file
  rw [hnames]
  apply List.map_congr_left
  intro name hname
  rw [hcontent name hname]

theorem check_congr (hnames : d'.names = d.names)
    (hcontent : ∀ name ∈ d.names, d'.content name = d.content name) :
    d'.check path limits = d.check path limits := by
  have hsize : ∀ name ∈ d.names, d'.size name = d.size name := by
    intro name hname
    rw [size, hcontent name hname]
    rfl
  have htooLarge : d'.tooLarge? limits.maxFile d.names = d.tooLarge? limits.maxFile d.names := by
    unfold tooLarge?
    rw [← List.head?_filter, ← List.head?_filter]
    refine congrArg _ (List.filter_congr fun name hname => ?_)
    rw [hsize name hname]
  have hentries : d.names.map (d'.entry path) = d.names.map (d.entry path) := by
    apply List.map_congr_left
    intro name hname
    rw [entry, hsize name hname]
    rfl
  have htotal : d'.total d.names = d.total d.names := by
    rw [total_eq_sum, total_eq_sum, List.map_congr_left hsize]
  unfold check
  rw [hnames, htooLarge, hentries, htotal]
  cases hfound : d.tooLarge? limits.maxFile d.names with
  | none => rfl
  | some name =>
    dsimp only
    rw [hsize name (List.mem_of_find?_eq_some hfound)]

end Directory

def sizeLines (entries : List (Path × Nat)) : Text :=
  entries.flatMap fun entry =>
    ascii "  - " ++ entry.1 ++ ascii ": " ++ Failure.megabytes entry.2 ++ ascii "\n"

theorem listed_in_message (total limit count : Nat) (largest : List (Path × Nat)) :
    ascii "Largest files:\n" ++ sizeLines largest ++ ascii "\n" <:+:
      (Failure.totalTooLarge total limit count largest).message := by
  have hinfix : ∀ front head lines last rest : Text,
      head ++ lines ++ last <:+: front ++ head ++ lines ++ last ++ rest :=
    fun front head lines last rest => ⟨front, rest, by simp⟩
  have hhead : ascii "\n\nLargest files:\n" = ascii "\n\n" ++ ascii "Largest files:\n" := rfl
  obtain ⟨rest, hrest⟩ : ∃ rest, ascii "\n" ++ rest =
      ascii "\nArchive old migrations or raise limits.max_total_bytes in sigil.yaml." := ⟨_, rfl⟩
  simp only [Failure.message, hhead, ← hrest, ← List.append_assoc]
  exact hinfix _ _ _ _ _

/--
The migration files of a directory are those that end in `.sigl` with something before it. They are
listed in increasing order, and loaded with their contents, unless limits are enabled and a file or
all together are larger. Then the failure names the first file that is, or else the five largest
ones. In which order the directory was listed makes no difference.
-/
theorem load_of_files {S : Type} {serve : (r : World.Request) → S → World.Reply r × S}
    {Here : S → Prop} {s : S} {directory : Path} {d : Directory} {limits : Limits}
    (hserve : ∀ r s, World.Reads r → Here s →
      d.Shows directory r (serve r s).1 ∧ Here (serve r s).2) (hs : Here s) :
    ∃ names : List Text, names.Pairwise (· < ·) ∧
      (∀ name, name ∈ names ↔
        (name, true) ∈ d.listing.entries ∧ ∃ stem, stem ≠ [] ∧ name = stem ++ ascii ".sigl") ∧
      ((listFiles directory).run serve s).1 = .ok names ∧
      (limits.enabled = false ∨ (∀ name ∈ names, d.size name ≤ limits.maxFile) ∧
          (names.map d.size).sum ≤ limits.maxTotal →
        ((loadFiles directory limits).run serve s).1 =
          .ok (names.map fun name => ⟨name, d.content name⟩)) ∧
      (limits.enabled = true → ∀ before name after, names = before ++ name :: after →
        (∀ name ∈ before, d.size name ≤ limits.maxFile) → limits.maxFile < d.size name →
        ∃ e, ((loadFiles directory limits).run serve s).1 = .error e ∧ e.kind = .fileSize ∧
          e.oversize? = some ⟨directory.join name, d.size name, limits.maxFile⟩) ∧
      (limits.enabled = true → (∀ name ∈ names, d.size name ≤ limits.maxFile) →
        limits.maxTotal < (names.map d.size).sum →
        ∃ (e : Failure) (sorted : List Text), sorted.Perm names ∧
          sorted.Pairwise (fun name name' =>
            d.size name' < d.size name ∨ d.size name = d.size name' ∧ name < name') ∧
          ((loadFiles directory limits).run serve s).1 = .error e ∧ e.kind = .fileSize ∧
          e.oversize? = some ⟨ascii "<multiple files>", (names.map d.size).sum, limits.maxTotal⟩ ∧
          ascii "Largest files:\n" ++
              sizeLines ((sorted.take 5).map fun name => (directory.join name, d.size name)) ++
              ascii "\n" <:+: e.message) ∧
      ∀ (S' : Type) (serve' : (r : World.Request) → S' → World.Reply r × S') (Here' : S' → Prop)
        (s' : S') (d' : Directory),
        (∀ r s, World.Reads r → Here' s →
          d'.Shows directory r (serve' r s).1 ∧ Here' (serve' r s).2) → Here' s' →
        (∀ entry, entry ∈ d'.listing.entries ↔ entry ∈ d.listing.entries) →
        (∀ name ∈ names, d'.content name = d.content name) →
        ((listFiles directory).run serve' s').1 = .ok names ∧
          ((loadFiles directory limits).run serve' s').1 =
            ((loadFiles directory limits).run serve s).1 := by
  have hlist := (listFiles_reads directory).run hserve (d.listFiles_ensures directory) hs
  have hload := (loadFiles_reads directory limits).run hserve
    (d.loadFiles_ensures limits directory) hs
  rw [hload]
  refine ⟨d.names, d.names_sorted, ?_, hlist, ?_, ?_, ?_, ?_⟩
  . intro name
    rw [Directory.names, mem_fileNames, Path.extension_eq_iff]
    rfl
  . intro hfits
    obtain hdisabled | ⟨hfiles, htotal⟩ := hfits
    . rw [hdisabled]
      rfl
    . rw [← Directory.total_eq_sum] at htotal
      rw [Directory.check_eq_ok hfiles htotal]
      exact ite_self _
  . intro henabled before name after hnames hbefore hlarge
    rw [henabled, if_pos rfl, Directory.check_of_file hnames hbefore hlarge]
    exact ⟨_, rfl, rfl, rfl⟩
  . intro henabled hfiles htotal
    obtain ⟨sorted, hperm, hsorted, hlargest⟩ :=
      exists_largest d.size (d.entry directory) (fun _ => rfl) d.names_sorted
    rw [← Directory.total_eq_sum] at htotal ⊢
    rw [henabled, if_pos rfl, Directory.check_of_total hfiles htotal, hlargest]
    exact ⟨_, sorted, hperm, hsorted, rfl, rfl, rfl, listed_in_message _ _ _ _⟩
  . intro S' serve' Here' s' d' hserve' hs' hentries hcontent
    have hlist' := (listFiles_reads directory).run hserve' (d'.listFiles_ensures directory) hs'
    have hload' := (loadFiles_reads directory limits).run hserve'
      (d'.loadFiles_ensures limits directory) hs'
    have hnames := Directory.names_congr hentries
    rw [hload', hlist', Directory.check_congr hnames hcontent,
      Directory.files_congr hnames hcontent]
    exact ⟨congrArg _ hnames, rfl⟩

/-- A directory with two migration files, which may have five bytes together, but not four. -/
theorem load_of_two_files :
    let a := ascii "a.sigl"
    let b := ascii "b.sigl"
    let m := Machine.plain ⟨.directory (ascii "db") (.file b (ascii "bbb") (.file (ascii "c.txt") []
      (.directory (ascii "d.sigl") .empty (.file a (ascii "aa") .empty)))) .empty⟩ .none
    (m.run (listFiles (ascii "db"))).1 = .ok [a, b] ∧
      (m.run (loadFiles (ascii "db") ⟨true, 3, 5⟩)).1 = .ok [⟨a, ascii "aa"⟩, ⟨b, ascii "bbb"⟩] ∧
      (∃ e, (m.run (loadFiles (ascii "db") ⟨true, 2, 5⟩)).1 = .error e ∧
        e.oversize? = some ⟨ascii "db/b.sigl", 3, 2⟩) ∧
      ∃ e, (m.run (loadFiles (ascii "db") ⟨true, 3, 4⟩)).1 = .error e ∧
        e.oversize? = some ⟨ascii "<multiple files>", 5, 4⟩ ∧
        ascii "Largest files:\n" ++ sizeLines [(ascii "db/b.sigl", 3), (ascii "db/a.sigl", 2)] ++
          ascii "\n" <:+: e.message := by
  intro a b m
  let d : Directory := ⟨⟨[(b, true), (ascii "c.txt", true), (ascii "d.sigl", false), (a, true)],
    by decide⟩, fun name => if name = a then ascii "aa" else ascii "bbb"⟩
  have hnames : d.names = [a, b] := by decide +kernel
  have hserve : ∀ r s, World.Reads r → s = m →
      d.Shows (ascii "db") r (Machine.serve r s).1 ∧ (Machine.serve r s).2 = m := by
    have hsizes : ∀ name ∈ [a, b],
        (m.disk.size (Path.join (ascii "db") name)).toOption = some (d.size name) := by
      decide +kernel
    have hcontents : ∀ name ∈ [a, b],
        (m.disk.read (Path.join (ascii "db") name)).toOption = some (some (d.content name)) := by
      decide +kernel
    rintro r s hreads hs
    subst hs
    cases r with
    | isDirectory p =>
      refine ⟨?_, rfl⟩
      rintro rfl
      decide +kernel
    | list p =>
      refine ⟨?_, rfl⟩
      rintro rfl
      rfl
    | size p =>
      refine ⟨?_, rfl⟩
      rintro name hname rfl
      exact eq_ok_of_toOption (hsizes name (hnames ▸ hname))
    | read p =>
      refine ⟨?_, rfl⟩
      rintro name hname rfl
      exact eq_ok_of_toOption (hcontents name (hnames ▸ hname))
    | _ => cases hreads
  have hunique : ∀ names : List Text, (m.run (listFiles (ascii "db"))).1 = .ok names →
      names = [a, b] := by
    intro names hlist
    have hlist' : (m.run (listFiles (ascii "db"))).1 = .ok [a, b] :=
      eq_ok_of_toOption (by decide +kernel)
    exact Except.ok.inj (hlist.symm.trans hlist')
  have hload := fun limits =>
    @load_of_files Machine Machine.serve (· = m) m (ascii "db") d limits hserve rfl
  obtain ⟨names, _, _, hlist, hfits, _⟩ := hload ⟨true, 3, 5⟩
  cases hunique names hlist
  obtain ⟨names, _, _, hlist', _, hfile, _⟩ := hload ⟨true, 2, 5⟩
  cases hunique names hlist'
  obtain ⟨names, _, _, hlist'', _, _, htotal, _⟩ := hload ⟨true, 3, 4⟩
  cases hunique names hlist''
  obtain ⟨e, herror, _, hoversize⟩ := hfile rfl [a] b [] rfl (by decide +kernel) (by decide +kernel)
  obtain ⟨e', sorted, hperm, hsorted, herror', _, hoversize', hmessage⟩ :=
    htotal rfl (by decide +kernel) (by decide +kernel)
  have hlargest : sorted = [b, a] :=
    (hperm.trans (.swap b a [])).eq_of_pairwise
      (fun _ _ _ _ hlarger hlarger' => absurd hlarger' (Larger.asymm hlarger)) hsorted
      (List.pairwise_pair.mpr (.inl (by decide +kernel)))
  rw [hlargest] at hmessage
  exact ⟨hlist, hfits (.inr (by decide +kernel)), ⟨e, herror, hoversize⟩, e', herror', hoversize',
    hmessage⟩

end Migration

end SchemaMigration

import SchemaMigration.Proofs.Machine.Alteration

/-!
This module contains what the creation of directories does to a disk: every file stays, and so does
where paths lead to. It also contains which names a directory is listed with.
-/

namespace SchemaMigration

namespace Text

theorem beforeNul_append {t : Text} (h : 0 ∈ t) (u : Text) : (t ++ u).beforeNul = t.beforeNul := by
  induction t with
  | nil => cases h
  | cons b rest ih =>
    by_cases hb : b = 0
    . simp [beforeNul, hb]
    . have hrest : 0 ∈ rest := (List.mem_cons.mp h).resolve_left (Ne.symm hb)
      have ih := ih hrest
      unfold beforeNul at ih ⊢
      rw [List.cons_append, List.takeWhile_cons_of_pos (by simpa using hb),
        List.takeWhile_cons_of_pos (by simpa using hb), ih]

end Text

namespace Path

/-- A zero byte stands in the last name of a path or in what stands before it. -/
theorem zero_mem_cases {p : Path} (h : 0 ∈ p) :
    0 ∈ p.fileName ∨
      0 ∈ p.parent ∧ p.parent.beforeNul = p.beforeNul ∧ p.parent.length < p.length := by
  rw [← p.folder_append_fileName, List.mem_append] at h
  refine h.symm.imp id ?_
  intro hfolder
  obtain hnil | ⟨f, hslash⟩ := p.folder_eq_nil_or_concat
  . rw [hnil] at hfolder
    cases hfolder
  -- The parent is the folder without the slashes at its end.
  have hreverse : p.reverse.dropWhile (· != byte '/') = byte '/' :: f.reverse := by
    rw [← List.reverse_inj, ← folder, hslash, List.reverse_cons, List.reverse_reverse]
  have hsplit : f.reverse = f.reverse.takeWhile (· == byte '/') ++
      f.reverse.dropWhile (· == byte '/') := List.takeWhile_append_dropWhile.symm
  have hzero : 0 ∈ f.reverse.dropWhile (· == byte '/') := by
    rw [hslash, List.mem_append, List.mem_singleton, or_iff_left (by decide), ← List.mem_reverse,
      hsplit, List.mem_append] at hfolder
    refine hfolder.resolve_left ?_
    intro hmem
    exact absurd (List.mem_takeWhile_imp hmem) (by decide)
  have hparent : p.parent = (f.reverse.dropWhile (· == byte '/')).reverse := by
    unfold parent
    rw [hreverse]
    dsimp only
    rw [List.dropWhile_cons_of_pos (by rfl)]
    split
    . next hnil =>
      rw [hnil] at hzero
      cases hzero
    . rfl
  have hp : p = p.parent ++ ((f.reverse.takeWhile (· == byte '/')).reverse ++
      byte '/' :: p.fileName) := by
    nth_rewrite 1 [← p.folder_append_fileName]
    rw [hslash, hparent, ← List.append_assoc, ← List.reverse_append, ← hsplit, List.reverse_reverse]
    exact List.append_cons f _ _ |>.symm
  have hmem : 0 ∈ p.parent := by
    rw [hparent, List.mem_reverse]
    exact hzero
  refine ⟨hmem, ?_, ?_⟩
  . conv => rhs; rw [hp]
    exact (Text.beforeNul_append hmem _).symm
  . conv => rhs; rw [hp]
    simp only [List.length_append, List.length_cons]
    omega

end Path

namespace Directory

variable {d : Directory} {name : Text}

/-- The names of regular files are those that lead to one. -/
theorem mem_names : (name, true) ∈ d.names ↔ ∃ content, d.entry? name = some (.file content) := by
  induction d with
  | empty => simp [names, entry?]
  | file first content rest ih =>
    rw [names, List.mem_cons, List.mem_filter, ih, entry?_file]
    by_cases hfirst : first = name
    . simp [hfirst]
    . simp [hfirst, Ne.symm hfirst]
  | directory first inner rest _ ih =>
    rw [names, List.mem_cons, List.mem_filter, ih, entry?_directory]
    by_cases hfirst : first = name
    . simp [hfirst]
    . simp [hfirst, Ne.symm hfirst]

end Directory

namespace Disk

variable {d d' d'' : Disk} {path : Path} {t : Target}

/-- Directories were created in places where there was nothing; all else is as it was. -/
structure Grows (d d' : Disk) : Prop where
  look_eq_or : ∀ place, d'.look place = d.look place ∨
    d.look place = none ∧ d'.look place = some none

theorem Grows.refl (d : Disk) : d.Grows d := ⟨fun _ => .inl rfl⟩

theorem Grows.trans (h : d.Grows d') (h' : d'.Grows d'') : d.Grows d'' := by
  constructor
  intro place
  obtain hlook' | ⟨hnone', hnew'⟩ := h'.look_eq_or place
  . rw [hlook']
    exact h.look_eq_or place
  . obtain hlook | ⟨hnone, hnew⟩ := h.look_eq_or place
    . exact .inr ⟨hlook.symm.trans hnone', hnew'⟩
    . exact .inr ⟨hnone, hnew'⟩

theorem Grows.directory (h : d.Grows d') {place : Place} (hplace : d.look place = some none) :
    d'.look place = some none := by
  obtain hlook | ⟨_, hnew⟩ := h.look_eq_or place
  . exact hlook.trans hplace
  . exact hnew

theorem Grows.look_eq_file_iff (h : d.Grows d') {place : Place} {content : Text} :
    d'.look place = some (some content) ↔ d.look place = some (some content) := by
  obtain hlook | ⟨hnone, hnew⟩ := h.look_eq_or place
  . rw [hlook]
  . simp [hnone, hnew]

theorem step_of_grows {t₁ t' : Target} (hgrows : d.Grows d') (ht : t.Sound d) (ht' : t'.Sound d')
    (halike : Alike (.ok t) (.ok t')) {part : Text} (h : d.step t part = .ok t₁) :
    Alike (.ok t₁) (d'.step t' part) := by
  obtain ⟨trail, node?, slash, named⟩ := t
  obtain ⟨trail', node?', slash', named'⟩ := t'
  obtain ⟨rfl, rfl, rfl⟩ := halike
  unfold step at h
  split at h
  . cases h
  . cases h
  . next entries hentries =>
    obtain rfl : node? = _ := hentries
    have hlook := look_eq_directory.mpr ⟨entries, ht.node.symm⟩
    obtain ⟨entries', hentries'⟩ := look_eq_directory.mp (hgrows.directory hlook)
    obtain rfl : node?' = _ := ht'.node.trans hentries'
    unfold step
    dsimp only at h ⊢
    split at h
    . next hdot =>
      cases h
      rw [if_pos hdot]
      exact .ok rfl rfl rfl
    next hdot =>
    rw [if_neg hdot]
    split at h
    . next hdots =>
      cases h
      rw [if_pos hdots]
      exact .ok rfl rfl rfl
    next hdots =>
    rw [if_neg hdots]
    split at h
    . cases h
    . next hlength =>
      cases h
      rw [if_neg hlength]
      exact .ok rfl rfl rfl

theorem walk_of_grows {t₁ t' : Target} (hgrows : d.Grows d') (ht : t.Sound d) (ht' : t'.Sound d')
    (halike : Alike (.ok t) (.ok t')) {ps : List Text} (h : d.walk t ps = .ok t₁) :
    Alike (.ok t₁) (d'.walk t' ps) := by
  induction ps generalizing t t' with
  | nil =>
    cases h
    exact halike
  | cons part rest ih =>
    unfold walk at h ⊢
    split at h
    . cases h
    . next t₂ hstep =>
      have hstep' := step_of_grows hgrows ht ht' halike hstep
      generalize hresult : d'.step t' part = result at hstep'
      cases hstep' with
      | ok htrail hslash hnamed =>
        exact ih (step_sound ht hstep) (step_sound ht' hresult) (.ok htrail hslash hnamed) h

theorem resolve_of_walk {t₁ : Target} (hne : path.beforeNul ≠ [])
    (hlength : path.beforeNul.length < maxPath)
    (h : d.walk d.start (parts path.beforeNul) = .ok t₁) :
    d.resolve path =
      .ok { t₁ with slash := t₁.slash || path.beforeNul.getLast? == some (byte '/') } := by
  unfold start at h
  unfold resolve
  split
  . next hnil => exact absurd hnil hne
  . rw [if_neg (Nat.not_le.mpr hlength), h]

theorem length_lt_of_resolve (h : d.resolve path = .ok t) : path.beforeNul.length < maxPath := by
  unfold resolve at h
  split at h
  . cases h
  . split at h
    . cases h
    . next hlength => exact Nat.not_le.mp hlength

/-- A path leads where it led to when directories have been created. -/
theorem resolve_of_grows (hgrows : d.Grows d') (h : d.resolve path = .ok t) :
    ∃ t', d'.resolve path = .ok t' ∧ t'.trail = t.trail := by
  have hlength := length_lt_of_resolve h
  obtain ⟨hne, t₁, hwalk, rfl⟩ := resolve_eq_ok h
  have halike := walk_of_grows hgrows d.start_sound d'.start_sound (.ok rfl rfl rfl) hwalk
  generalize hwalk' : d'.walk d'.start (parts path.beforeNul) = result at halike
  cases halike with
  | ok htrail hslash hnamed => exact ⟨_, resolve_of_walk hne hlength hwalk', htrail⟩

/-- What there is to say of a directory that is there or is created. -/
theorem makeDirectory_eq_ok {isNew : Bool} (h : d.makeDirectory path = .ok (isNew, d')) :
    ∃ t, d.resolve path = .ok t ∧
      ((∃ entries, t.node? = some (.directory entries)) ∧ d' = d ∨
        t.node? = none ∧ d' = d.set t.place (.directory .empty)) := by
  unfold makeDirectory at h
  obtain ⟨t, hresolve, h⟩ := bind_eq_ok.mp h
  refine ⟨t, hresolve, ?_⟩
  split at h
  . next entries hentries =>
    cases h
    exact .inl ⟨⟨entries, hentries⟩, rfl⟩
  . cases h
  . next hnone =>
    cases h
    exact .inr ⟨hnone, rfl⟩

theorem look_set_directory (h : d.resolve path = .ok t) (hnone : t.node? = none) (q : Place) :
    (d.set t.place (.directory .empty)).look q =
      if q = t.place then some none else d.look q := by
  have hnamed : t.named = true := by
    rw [← Bool.not_eq_false]
    intro hunnamed
    obtain ⟨entries, hentries⟩ := node?_of_unnamed h hunnamed
    cases hnone.symm.trans hentries
  obtain ⟨above, name, hplace, habove⟩ := (resolve_sound h).named hnamed
  have hlook : d.look t.place = none := by
    rw [look_place h, hnone]
    rfl
  have hempty : ∀ below, Directory.lookBelow (some (.directory .empty)) below =
      if below = [] then some none else none := by
    intro below
    cases below with
    | nil => rfl
    | cons first below => rfl
  apply Directory.look_set_node _ _ _ hempty
  . rw [hplace]
    simp
  . rw [hplace, List.dropLast_concat]
    exact habove
  . exact ne_of_eq_of_ne hlook nofun

theorem makeDirectory_grows {isNew : Bool} (h : d.makeDirectory path = .ok (isNew, d')) :
    d.Grows d' := by
  obtain ⟨t, hresolve, ⟨_, rfl⟩ | ⟨hnone, rfl⟩⟩ := makeDirectory_eq_ok h
  . exact .refl _
  . constructor
    intro place
    rw [look_set_directory hresolve hnone]
    split
    . next heq =>
      rw [heq, look_place hresolve, hnone]
      exact .inr ⟨rfl, rfl⟩
    . exact .inl rfl

def LeadsToDirectory (d : Disk) (path : Path) : Prop :=
  ∃ t, d.resolve path = .ok t ∧ d.look t.place = some none

theorem LeadsToDirectory.of_grows (h : d.LeadsToDirectory path) (hgrows : d.Grows d') :
    d'.LeadsToDirectory path := by
  obtain ⟨t, hresolve, hlook⟩ := h
  obtain ⟨t', hresolve', htrail⟩ := resolve_of_grows hgrows hresolve
  refine ⟨t', hresolve', ?_⟩
  unfold Target.place
  rw [htrail]
  exact hgrows.directory hlook

theorem makeDirectory_leadsTo {isNew : Bool} (h : d.makeDirectory path = .ok (isNew, d')) :
    d'.LeadsToDirectory path := by
  have hgrows := makeDirectory_grows h
  obtain ⟨t, hresolve, ⟨⟨entries, hentries⟩, rfl⟩ | ⟨hnone, rfl⟩⟩ := makeDirectory_eq_ok h
  . refine ⟨t, hresolve, ?_⟩
    rw [look_place hresolve, hentries]
    rfl
  . obtain ⟨t', hresolve', htrail⟩ := resolve_of_grows hgrows hresolve
    refine ⟨t', hresolve', ?_⟩
    rw [look_set_directory hresolve hnone]
    exact if_pos (congrArg List.reverse htrail)

theorem makeEach_grows (d : Disk) (isNew : Bool) (paths : List Path) :
    d.Grows (d.makeEach isNew paths).2 := by
  fun_induction makeEach d isNew paths with
  | case1 => exact .refl _
  | case2 => exact .refl _
  | case3 d _ path rest isNew d' hmake ih => exact (makeDirectory_grows hmake).trans ih

theorem makeEach_leadsTo {isNew isNew' : Bool} {paths : List Path}
    (h : d.makeEach isNew paths = (.ok isNew', d')) (hpath : path ∈ paths) :
    d'.LeadsToDirectory path := by
  induction paths generalizing d isNew with
  | nil => cases hpath
  | cons first rest ih =>
    unfold makeEach at h
    split at h
    . cases h
    . next isNew₁ d₁ hmake =>
      cases hpath with
      | head =>
        have hgrows := makeEach_grows d₁ isNew₁ rest
        rw [h] at hgrows
        exact (makeDirectory_leadsTo hmake).of_grows hgrows
      | tail _ hrest => exact ih h hrest

/-- Whatever comes of it, the creation of directories leaves every file as it was. -/
theorem makeDirectories_grows {path : Path} {result : Except Errno Bool}
    (h : d.makeDirectories path = (result, d')) : d.Grows d' := by
  have hgrows : d.Grows (d.makeDirectories path).2 := by
    unfold makeDirectories
    split
    . exact .refl _
    split
    . exact .refl _
    . exact .refl _
    . exact .refl _
    . split
      . exact .refl _
      . exact makeEach_grows d false _
  rw [h] at hgrows
  exact hgrows

/-- The system sees of a path only what stands before its first zero byte. -/
theorem resolve_congr {p q : Path} (h : p.beforeNul = q.beforeNul) : d.resolve p = d.resolve q := by
  unfold resolve
  rw [h]

theorem find?_congr {p q : Path} (h : p.beforeNul = q.beforeNul) : d.find? p = d.find? q := by
  unfold find? find
  rw [resolve_congr h]

theorem LeadsToDirectory.congr {p q : Path} (h : d.LeadsToDirectory p)
    (hpath : p.beforeNul = q.beforeNul) : d.LeadsToDirectory q := by
  unfold LeadsToDirectory
  rw [← resolve_congr hpath]
  exact h

/-- What the search for missing directories finds at a path, and how it goes on. -/
theorem missing_succ_eq_ok {fuel : Nat} {found found' : List Path}
    (h : d.missing (fuel + 1) found path = .ok found') :
    ∃ more, (more = if isDots path.fileName then found else path :: found) ∧
      (found' = more ∧ (path.parent = [] ∨ d.find? path.parent ≠ .ok none) ∨
        d.missing fuel more path.parent = .ok found') := by
  unfold missing at h
  dsimp only at h
  generalize (if isDots path.fileName then found else path :: found) = more at h
  refine ⟨more, rfl, ?_⟩
  split at h
  . cases h
  split at h
  . next hparent =>
    cases h
    exact .inl ⟨rfl, .inl (List.isEmpty_iff.mp hparent)⟩
  split at h
  . exact .inr h
  . cases h
  . next hfound _ =>
    cases h
    exact .inl ⟨rfl, .inr hfound⟩

theorem subset_of_missing {fuel : Nat} {found found' : List Path}
    (h : d.missing fuel found path = .ok found') : found ⊆ found' := by
  induction fuel generalizing found path with
  | zero =>
    cases h
    exact List.Subset.refl _
  | succ fuel ih =>
    obtain ⟨more, hmore, hrest⟩ := missing_succ_eq_ok h
    have hsubset : found ⊆ more := by
      rw [hmore]
      split
      . exact List.Subset.refl found
      . exact List.subset_cons_self path found
    obtain ⟨rfl, _⟩ | hrest := hrest
    . exact hsubset
    . exact List.Subset.trans hsubset (ih hrest)

/--
A path with a zero byte has more names than the system sees. Going up from a path that leads nowhere
passes the name in which the zero byte stands, and this name is not a dot or two.
-/
theorem exists_mem_of_missing {fuel : Nat} {found found' : List Path} (hzero : 0 ∈ path)
    (hnone : d.find? path = .ok none) (hfuel : path.length ≤ fuel)
    (h : d.missing fuel found path = .ok found') :
    ∃ p ∈ found', p.beforeNul = path.beforeNul := by
  induction fuel generalizing found path with
  | zero =>
    rw [List.length_eq_zero_iff.mp (Nat.le_zero.mp hfuel)] at hzero
    cases hzero
  | succ fuel ih =>
    obtain ⟨more, hmore, hrest⟩ := missing_succ_eq_ok h
    obtain hname | ⟨hparent, hbefore, hlength⟩ := Path.zero_mem_cases hzero
    . have hdots : ¬isDots path.fileName = true := by
        rw [isDots, Bool.or_eq_true, beq_iff_eq, beq_iff_eq]
        rintro (hdot | hdot)
        . exact absurd (hdot ▸ hname) (by decide)
        . exact absurd (hdot ▸ hname) (by decide)
      rw [if_neg hdots] at hmore
      have hsubset : more ⊆ found' := by
        obtain ⟨rfl, _⟩ | hrest := hrest
        . exact List.Subset.refl _
        . exact subset_of_missing hrest
      exact ⟨path, hsubset (hmore ▸ List.mem_cons_self), rfl⟩
    . have hnone' : d.find? path.parent = .ok none := (find?_congr hbefore).trans hnone
      obtain ⟨_, hempty | hfound⟩ | hrest := hrest
      . rw [hempty] at hparent
        cases hparent
      . exact absurd hnone' hfound
      . obtain ⟨p, hp, heq⟩ := ih hparent hnone' (by omega) hrest
        exact ⟨p, hp, heq.trans hbefore⟩

theorem leadsToDirectory_of_find {entries : Directory}
    (h : d.find path = .ok (t, .directory entries)) : d.LeadsToDirectory path := by
  obtain ⟨hresolve, hnode, _⟩ := find_eq_ok h
  refine ⟨t, hresolve, ?_⟩
  rw [look_place hresolve, hnode]
  rfl

theorem leadsToDirectory_of_find? {entries : Directory}
    (h : d.find? path = .ok (some (.directory entries))) : d.LeadsToDirectory path := by
  unfold find? at h
  split at h
  . next hfind =>
    cases h
    exact leadsToDirectory_of_find hfind
  . cases h
  . cases h
  . cases h

theorem leadsToDirectory_of_isDirectory (h : d.isDirectory path = true) :
    d.LeadsToDirectory path := by
  unfold isDirectory at h
  split at h
  . next hfind => exact leadsToDirectory_of_find hfind
  . cases h

/-- Also a path with a zero byte leads to a directory once directories have been created for it. -/
theorem makeDirectories_leadsTo_of_zero {isNew : Bool} (hzero : 0 ∈ path)
    (h : d.makeDirectories path = (.ok isNew, d')) : d'.LeadsToDirectory path := by
  unfold makeDirectories at h
  split at h
  . cases h
  split at h
  . cases h
  . next entries hentries =>
    cases h
    exact leadsToDirectory_of_find? hentries
  . cases h
  . next hnone =>
    split at h
    . cases h
    . next found hfound =>
      -- Slashes at the end of the path are left out first.
      obtain ⟨p, hzero', hbefore, hlength, hp⟩ : ∃ p, 0 ∈ p ∧ p.beforeNul = path.beforeNul ∧
          p.length ≤ path.length ∧ (if path.fileName.isEmpty then path.parent else path) = p := by
        split
        . next hname =>
          obtain hmem | ⟨hparent, hbefore, hlength⟩ := Path.zero_mem_cases hzero
          . rw [List.isEmpty_iff.mp hname] at hmem
            cases hmem
          . exact ⟨_, hparent, hbefore, Nat.le_of_lt hlength, rfl⟩
        . exact ⟨_, hzero, rfl, Nat.le_refl _, rfl⟩
      rw [hp] at hfound
      obtain ⟨q, hq, hbefore'⟩ := exists_mem_of_missing hzero'
        ((find?_congr hbefore).trans hnone) hlength hfound
      exact (makeEach_leadsTo h hq).congr (hbefore'.trans hbefore)

theorem find_of_directory {entries : Directory} (hresolve : d.resolve path = .ok t)
    (hentries : d.get? t.place = some (.directory entries)) :
    d.find path = .ok (t, .directory entries) := by
  unfold find
  rw [hresolve, ok_bind, (resolve_sound hresolve).node, hentries]
  rfl

theorem LeadsToDirectory.find?_eq (h : d.LeadsToDirectory path) :
    ∃ entries, d.find? path = .ok (some (.directory entries)) := by
  obtain ⟨t, hresolve, hlook⟩ := h
  obtain ⟨entries, hentries⟩ := look_eq_directory.mp hlook
  refine ⟨entries, ?_⟩
  unfold find?
  rw [find_of_directory hresolve hentries]

theorem LeadsToDirectory.ne_nil (h : d.LeadsToDirectory path) : path ≠ [] := by
  obtain ⟨t, hresolve, _⟩ := h
  rintro rfl
  exact (resolve_eq_ok hresolve).1 rfl

theorem makeDirectories_of_leadsTo (h : d.LeadsToDirectory path) :
    d.makeDirectories path = (.ok false, d) := by
  obtain ⟨entries, hfound⟩ := h.find?_eq
  unfold makeDirectories
  rw [if_neg (by simpa using h.ne_nil), hfound]

end Disk

end SchemaMigration

import SchemaMigration.Proofs.Basic
import SchemaMigration.Proofs.Machine.Disk

/-!
This module contains where paths lead to. This depends on the places of directories only, and two
files in one folder have different places.
-/

namespace SchemaMigration

namespace Text

theorem splitOn_of_not_mem {separator : UInt8} {t : Text} (h : separator ∉ t) :
    splitOn separator t = [t] := by
  induction t with
  | nil => rfl
  | cons b rest ih =>
    rw [List.mem_cons, not_or] at h
    rw [splitOn, ih h.2]
    simp [Ne.symm h.1]

theorem splitOn_eq_cons (separator : UInt8) (t : Text) :
    ∃ part parts, splitOn separator t = part :: parts := by
  cases t with
  | nil => exact ⟨[], [], rfl⟩
  | cons b rest =>
    unfold splitOn
    split
    . exact ⟨_, _, rfl⟩
    . split
      . exact ⟨_, _, rfl⟩
      . exact ⟨_, _, rfl⟩

theorem splitOn_append_separator (separator : UInt8) (t u : Text) :
    splitOn separator (t ++ separator :: u) = splitOn separator t ++ splitOn separator u := by
  induction t with
  | nil => simp [splitOn]
  | cons b rest ih =>
    rw [List.cons_append, splitOn, splitOn, ih]
    split
    . rfl
    . obtain ⟨part, parts, hparts⟩ := splitOn_eq_cons separator rest
      rw [hparts]
      rfl

theorem beforeNul_eq_self {t : Text} (h : 0 ∉ t) : t.beforeNul = t := by
  unfold beforeNul
  rw [List.takeWhile_eq_self_iff]
  intro b hb
  simp only [bne_iff_ne, ne_eq]
  rintro rfl
  exact h hb

end Text

namespace Path

/-- What stands before the file name: the directories, each with a slash behind it. -/
def folder (p : Path) : Path := (p.reverse.dropWhile (· != byte '/')).reverse

theorem folder_append_fileName (p : Path) : p.folder ++ p.fileName = p := by
  unfold folder fileName
  rw [← List.reverse_append, List.takeWhile_append_dropWhile, List.reverse_reverse]

theorem slash_not_mem_fileName (p : Path) : byte '/' ∉ p.fileName := by
  unfold fileName
  rw [List.mem_reverse]
  intro h
  simpa using List.mem_takeWhile_imp h

theorem folder_append {p s : Path} (h : byte '/' ∉ s) : (p ++ s).folder = p.folder := by
  unfold folder
  rw [List.reverse_append, List.dropWhile_append_of_pos]
  intro b hb
  simp only [bne_iff_ne, ne_eq]
  rintro rfl
  exact h (List.mem_reverse.mp hb)

theorem folder_eq_nil_or_concat (p : Path) : p.folder = [] ∨ ∃ f, p.folder = f ++ [byte '/'] := by
  unfold folder
  cases h : p.reverse.dropWhile (· != byte '/') with
  | nil => exact .inl rfl
  | cons b rest =>
    have hb : b = byte '/' := by
      have hstop := List.head?_dropWhile_not (· != byte '/') p.reverse
      rw [h] at hstop
      simpa using hstop
    subst hb
    exact .inr ⟨rest.reverse, List.reverse_cons⟩

end Path

namespace Disk

variable {d d' : Disk} {path : Path}

theorem parts_eq_concat {p : Path} (hne : p ≠ []) (hlast : p.getLast? ≠ some (byte '/')) :
    parts p = parts p.folder ++ [p.fileName] := by
  have hslash := p.slash_not_mem_fileName
  have hp := p.folder_append_fileName
  obtain hfolder | ⟨f, hfolder⟩ := p.folder_eq_nil_or_concat
  . rw [hfolder, List.nil_append] at hp
    rw [hfolder, hp]
    unfold parts
    rw [hp] at hslash
    rw [Text.splitOn_of_not_mem hslash]
    simp [Text.splitOn, hne]
  . have hname : p.fileName ≠ [] := by
      intro hnil
      rw [hnil, List.append_nil, hfolder] at hp
      apply hlast
      rw [← hp]
      simp
    nth_rewrite 1 [← hp]
    unfold parts
    rw [hfolder, List.append_assoc, List.singleton_append, Text.splitOn_append_separator,
      Text.splitOn_append_separator, Text.splitOn_of_not_mem hslash]
    simp [Text.splitOn, hname]

def start (d : Disk) : Target := ⟨[], some (.directory d.root), false, false⟩

/-- What a target says of a disk: what is there, and that it lies in a directory or is one. -/
structure Target.Sound (d : Disk) (t : Target) : Prop where
  node : t.node? = d.get? t.place
  named : t.named = true → ∃ above name, t.place = above ++ [name] ∧ d.look above = some none
  unnamed : t.named = false → d.look t.place = some none

theorem start_sound (d : Disk) : d.start.Sound d where
  node := rfl
  named := nofun
  unnamed _ := rfl

theorem step_sound {t t' : Target} {part : Text} (ht : t.Sound d) (h : d.step t part = .ok t') :
    t'.Sound d := by
  unfold step at h
  split at h
  . cases h
  . cases h
  . next entries hentries =>
    have hget : d.get? t.place = some (.directory entries) := ht.node.symm.trans hentries
    have hlook : d.look t.place = some none := look_eq_directory.mpr ⟨entries, hget⟩
    split at h
    . cases h
      exact ⟨ht.node, nofun, fun _ => hlook⟩
    split at h
    . cases h
      refine ⟨rfl, nofun, fun _ => ?_⟩
      cases htrail : t.trail with
      | nil => rfl
      | cons last above =>
        unfold Target.place at hlook
        rw [htrail, List.reverse_cons] at hlook
        exact Directory.look_of_look_concat (ne_of_eq_of_ne hlook (by simp))
    split at h
    . cases h
    . cases h
      have hplace : (⟨part :: t.trail, entries.entry? part, false, true⟩ : Target).place =
          t.place ++ [part] := List.reverse_cons
      refine ⟨?_, fun _ => ⟨t.place, part, hplace, hlook⟩, nofun⟩
      rw [hplace]
      exact (Directory.get?_concat hget part).symm

theorem walk_sound {t t' : Target} {ps : List Text} (ht : t.Sound d) (h : d.walk t ps = .ok t') :
    t'.Sound d := by
  induction ps generalizing t with
  | nil =>
    cases h
    exact ht
  | cons part rest ih =>
    unfold walk at h
    split at h
    . cases h
    . next hstep => exact ih (step_sound ht hstep) h

theorem walk_append_singleton {t t' : Target} {ps : List Text} {part : Text}
    (h : d.walk t (ps ++ [part]) = .ok t') :
    ∃ t₁, d.walk t ps = .ok t₁ ∧ d.step t₁ part = .ok t' := by
  induction ps generalizing t with
  | nil =>
    rw [List.nil_append] at h
    unfold walk at h
    split at h
    . cases h
    . next hstep =>
      cases h
      exact ⟨t, rfl, hstep⟩
  | cons first rest ih =>
    rw [List.cons_append] at h
    unfold walk at h ⊢
    split at h
    . cases h
    . exact ih h

/--
Two walks have led to the same place, whatever is there, or they came to an end in the same way. It
does not matter whether there was nothing on the way or something that is not a directory.
-/
inductive Alike : Except Errno Target → Except Errno Target → Prop
  | ok {t t' : Target} (trail : t'.trail = t.trail) (slash : t'.slash = t.slash)
    (named : t'.named = t.named) : Alike (.ok t) (.ok t')
  | error (errno : Errno) : Alike (.error errno) (.error errno)
  | lost {errno errno' : Errno} (h : errno = .noEntry ∨ errno = .notDirectory)
    (h' : errno' = .noEntry ∨ errno' = .notDirectory) : Alike (.error errno) (.error errno')

theorem step_alike {t t' : Target} (hsame : d.SameDirectories d') (ht : t.Sound d)
    (ht' : t'.Sound d') (h : Alike (.ok t) (.ok t')) (part : Text) :
    Alike (d.step t part) (d'.step t' part) := by
  obtain ⟨trail, node?, slash, named⟩ := t
  obtain ⟨trail', node?', slash', named'⟩ := t'
  obtain ⟨rfl, rfl, rfl⟩ := h
  have hdirectory : (∃ entries, node? = some (.directory entries)) ↔
      ∃ entries, node?' = some (.directory entries) := by
    rw [show node? = _ from ht.node, show node?' = _ from ht'.node, ← look_eq_directory,
      ← look_eq_directory]
    exact (hsame _).symm
  unfold step
  match node?, node?' with
  | some (.directory entries), some (.directory entries') =>
    dsimp only
    split
    . exact .ok rfl rfl rfl
    split
    . exact .ok rfl rfl rfl
    split
    . exact .error _
    . exact .ok rfl rfl rfl
  | some (.directory entries), none => simp at hdirectory
  | some (.directory entries), some (.file _) => simp at hdirectory
  | none, some (.directory entries) => simp at hdirectory
  | some (.file _), some (.directory entries) => simp at hdirectory
  | none, none => exact .error _
  | none, some (.file _) => exact .lost (.inl rfl) (.inr rfl)
  | some (.file _), none => exact .lost (.inr rfl) (.inl rfl)
  | some (.file _), some (.file _) => exact .error _

theorem walk_alike {t t' : Target} (hsame : d.SameDirectories d') (ht : t.Sound d)
    (ht' : t'.Sound d') (h : Alike (.ok t) (.ok t')) (ps : List Text) :
    Alike (d.walk t ps) (d'.walk t' ps) := by
  induction ps generalizing t t' with
  | nil => exact h
  | cons part rest ih =>
    have hstep := step_alike hsame ht ht' h part
    unfold walk
    cases hfirst : d.step t part with
    | error errno =>
      rw [hfirst] at hstep
      cases hfirst' : d'.step t' part with
      | error errno' =>
        rw [hfirst'] at hstep
        exact hstep
      | ok t₁' =>
        rw [hfirst'] at hstep
        cases hstep
    | ok t₁ =>
      rw [hfirst] at hstep
      cases hfirst' : d'.step t' part with
      | error errno' =>
        rw [hfirst'] at hstep
        cases hstep
      | ok t₁' =>
        rw [hfirst'] at hstep
        exact ih (step_sound ht hfirst) (step_sound ht' hfirst') hstep

/-- What a path leads to, from the parts that are followed. -/
theorem resolve_eq_ok {t : Target} (h : d.resolve path = .ok t) :
    path.beforeNul ≠ [] ∧ ∃ t₁, d.walk d.start (parts path.beforeNul) = .ok t₁ ∧
      t = { t₁ with slash := t₁.slash || path.beforeNul.getLast? == some (byte '/') } := by
  unfold resolve at h
  split at h
  . cases h
  . next hne =>
    refine ⟨hne, ?_⟩
    split at h
    . cases h
    . split at h
      . cases h
      . next t₁ hwalk =>
        cases h
        exact ⟨t₁, hwalk, rfl⟩

theorem resolve_sound {t : Target} (h : d.resolve path = .ok t) : t.Sound d := by
  obtain ⟨_, t₁, hwalk, rfl⟩ := resolve_eq_ok h
  have ht₁ := walk_sound d.start_sound hwalk
  exact ⟨ht₁.node, ht₁.named, ht₁.unnamed⟩

theorem resolve_alike (hsame : d.SameDirectories d') (path : Path) :
    Alike (d.resolve path) (d'.resolve path) := by
  have hwalk := walk_alike hsame d.start_sound d'.start_sound (.ok rfl rfl rfl)
    (parts path.beforeNul)
  unfold start at hwalk
  unfold resolve
  split
  . exact .error _
  . split
    . exact .error _
    . revert hwalk
      generalize d.walk _ _ = result
      generalize d'.walk _ _ = result'
      intro hwalk
      cases hwalk with
      | error errno => exact .error errno
      | lost h h' => exact .lost h h'
      | ok htrail hslash hnamed => exact .ok htrail (by dsimp only; rw [hslash]) hnamed

/-- A path that does not ask for a directory leads into its folder, to the place of its name. -/
theorem resolve_unslashed {t : Target} (h : d.resolve path = .ok t) (hslash : t.slash = false) :
    ∃ t₁, d.walk d.start (parts (Path.folder path.beforeNul)) = .ok t₁ ∧
      t.trail = Path.fileName path.beforeNul :: t₁.trail ∧ t.named = true := by
  obtain ⟨hne, t', hwalk, rfl⟩ := resolve_eq_ok h
  rw [Bool.or_eq_false_iff] at hslash
  rw [parts_eq_concat hne (by simpa using hslash.2)] at hwalk
  obtain ⟨t₁, hfolder, hstep⟩ := walk_append_singleton hwalk
  refine ⟨t₁, hfolder, ?_⟩
  unfold step at hstep
  split at hstep
  . cases hstep
  . cases hstep
  . split at hstep
    . cases hstep
      cases hslash.1
    split at hstep
    . cases hstep
      cases hslash.1
    split at hstep
    . cases hstep
    . cases hstep
      exact ⟨rfl, rfl⟩

/-- The place of the file that a path names, whether there is a file or not. -/
def leadsTo (d : Disk) (path : Path) : Option Place :=
  match d.resolve path with
  | .ok t => if t.slash then none else some t.place
  | .error _ => none

theorem leadsTo_eq_some {place : Place} :
    d.leadsTo path = some place ↔
      ∃ t, d.resolve path = .ok t ∧ t.slash = false ∧ t.place = place := by
  unfold leadsTo
  cases d.resolve path with
  | error errno => simp
  | ok t => cases h : t.slash <;> simp [h]

theorem leadsTo_congr (hsame : d.SameDirectories d') (path : Path) :
    d'.leadsTo path = d.leadsTo path := by
  have halike := resolve_alike hsame path
  unfold leadsTo
  generalize d.resolve path = result at halike
  generalize d'.resolve path = result' at halike
  cases halike with
  | error errno => rfl
  | lost h h' => rfl
  | ok htrail hslash hnamed =>
    dsimp only [Target.place]
    rw [htrail, hslash]

/-- The place of a file lies in a directory. -/
theorem exists_above_of_leadsTo {place : Place} (h : d.leadsTo path = some place) :
    ∃ above name, place = above ++ [name] ∧ d.look above = some none := by
  obtain ⟨t, hresolve, hslash, rfl⟩ := leadsTo_eq_some.mp h
  obtain ⟨_, _, _, hnamed⟩ := resolve_unslashed hresolve hslash
  exact (resolve_sound hresolve).named hnamed

theorem leadsTo_injective {p q : Path} (hp : 0 ∉ p) (hq : 0 ∉ q) (hfolder : p.folder = q.folder)
    {place : Place} (h : d.leadsTo p = some place) (h' : d.leadsTo q = some place) : p = q := by
  obtain ⟨t, hresolve, hslash, rfl⟩ := leadsTo_eq_some.mp h
  obtain ⟨t', hresolve', hslash', hplace⟩ := leadsTo_eq_some.mp h'
  obtain ⟨t₁, hwalk, htrail, _⟩ := resolve_unslashed hresolve hslash
  obtain ⟨t₁', hwalk', htrail', _⟩ := resolve_unslashed hresolve' hslash'
  rw [Text.beforeNul_eq_self hp] at hwalk htrail
  rw [Text.beforeNul_eq_self hq] at hwalk' htrail'
  rw [hfolder, hwalk'] at hwalk
  cases hwalk
  unfold Target.place at hplace
  rw [htrail, htrail', List.reverse_inj, List.cons.injEq] at hplace
  rw [← p.folder_append_fileName, ← q.folder_append_fileName, hfolder, hplace.1]

def file? (d : Disk) (path : Path) : Option Text :=
  (d.leadsTo path).bind fun place => (d.look place).join

end Disk

end SchemaMigration

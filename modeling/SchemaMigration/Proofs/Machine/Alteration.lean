import SchemaMigration.Proofs.Machine.Paths

/-!
This module contains what the operations of a disk do to the files of one folder. An operation gives
one file a content or removes it, and leaves every other place as it was.
-/

namespace SchemaMigration.Disk

variable {d d' : Disk} {p q : Path} {t : Target} {content : Text} {content? : Option Text}

theorem look_place (h : d.resolve p = .ok t) : d.look t.place = t.node?.map Node.content? := by
  rw [(resolve_sound h).node]
  rfl

theorem leadsTo_of_resolve (h : d.resolve p = .ok t) (hslash : t.slash = false) :
    d.leadsTo p = some t.place :=
  leadsTo_eq_some.mpr ⟨t, h, hslash, rfl⟩

theorem file?_of_leadsTo {place : Place} (h : d.leadsTo p = some place) :
    d.file? p = (d.look place).join := by
  unfold file?
  rw [h]
  rfl

theorem file?_of_resolve (h : d.resolve p = .ok t) (hslash : t.slash = false) :
    d.file? p = t.node?.bind Node.content? := by
  rw [file?_of_leadsTo (leadsTo_of_resolve h hslash), look_place h]
  cases t.node? with
  | none => rfl
  | some node => rfl

/-- There is a file only where a path leads to. -/
theorem resolve_of_file? (h : d.file? p = some content) :
    ∃ t, d.resolve p = .ok t ∧ t.slash = false ∧ t.node? = some (.file content) := by
  cases hplace : d.leadsTo p with
  | none =>
    unfold file? at h
    rw [hplace] at h
    cases h
  | some place =>
    obtain ⟨t, hresolve, hslash, rfl⟩ := leadsTo_eq_some.mp hplace
    refine ⟨t, hresolve, hslash, ?_⟩
    rw [file?_of_resolve hresolve hslash] at h
    match hnode : t.node? with
    | none =>
      rw [hnode] at h
      cases h
    | some (.directory entries) =>
      rw [hnode] at h
      cases h
    | some (.file _) =>
      rw [hnode] at h
      cases h
      rfl

/-- The file that a path names is given a content or removed; all else stays. -/
def Alters (d : Disk) (p : Path) (content? : Option Text) (d' : Disk) : Prop :=
  ∃ place, d.leadsTo p = some place ∧ d.Puts place content? d'

theorem Alters.sameDirectories (h : d.Alters p content? d') : d.SameDirectories d' := by
  obtain ⟨_, _, hputs⟩ := h
  exact hputs.sameDirectories

theorem Alters.look_eq (h : d.Alters p content? d') {place : Place}
    (hplace : d.leadsTo p ≠ some place) : d'.look place = d.look place := by
  obtain ⟨altered, hleads, hputs⟩ := h
  rw [hputs.look_eq, if_neg]
  rintro rfl
  exact hplace hleads

theorem Alters.file?_self (h : d.Alters p content? d') : d'.file? p = content? := by
  obtain ⟨place, hleads, hputs⟩ := h
  rw [← leadsTo_congr hputs.sameDirectories] at hleads
  rw [file?_of_leadsTo hleads, hputs.look_eq, if_pos rfl]
  cases content? with
  | none => rfl
  | some content => rfl

/-- A file that is altered again has the last content. -/
theorem Alters.trans {d'' : Disk} {last? : Option Text} (h : d.Alters p content? d')
    (h' : d'.Alters p last? d'') : d.Alters p last? d'' := by
  obtain ⟨place, hleads, hputs⟩ := h
  obtain ⟨place', hleads', hputs'⟩ := h'
  rw [leadsTo_congr hputs.sameDirectories, hleads] at hleads'
  cases hleads'
  refine ⟨place, hleads, hputs.not_directory, ?_⟩
  intro q
  rw [hputs'.look_eq, hputs.look_eq]
  split
  . rfl
  . rfl

theorem Alters.file?_eq (h : d.Alters p content? d') (hp : 0 ∉ p) (hq : 0 ∉ q)
    (hfolder : p.folder = q.folder) :
    d'.file? q = if q = p then content? else d.file? q := by
  obtain ⟨altered, hleads, hputs⟩ := h
  have hcongr := leadsTo_congr hputs.sameDirectories q
  unfold file?
  rw [hcongr]
  split
  . next heq =>
    subst heq
    rw [hleads, Option.bind_some, hputs.look_eq, if_pos rfl]
    cases content? with
    | none => rfl
    | some content => rfl
  . next hne =>
    cases hplace : d.leadsTo q with
    | none => rfl
    | some place =>
      rw [Option.bind_some, Option.bind_some, hputs.look_eq, if_neg]
      rintro rfl
      exact hne (leadsTo_injective hp hq hfolder hleads hplace).symm

theorem not_directory_of_node? (h : d.resolve p = .ok t)
    (hnode : ∀ entries, t.node? ≠ some (.directory entries)) : d.look t.place ≠ some none := by
  rw [ne_eq, look_eq_directory, ← (resolve_sound h).node]
  rintro ⟨entries, hentries⟩
  exact hnode entries hentries

theorem alters_set (h : d.resolve p = .ok t) (hslash : t.slash = false)
    (hnode : ∀ entries, t.node? ≠ some (.directory entries)) (content : Text) :
    d.Alters p (some content) (d.set t.place (.file content)) := by
  have hleads := leadsTo_of_resolve h hslash
  refine ⟨t.place, hleads, ?_⟩
  have hnot := not_directory_of_node? h hnode
  obtain ⟨above, name, hplace, habove⟩ := exists_above_of_leadsTo hleads
  rw [hplace] at hnot ⊢
  exact set_puts habove hnot content

/-- A file that is given the content it has. -/
theorem alters_self (h : d.file? p = some content) : d.Alters p (some content) d := by
  obtain ⟨t, hresolve, hslash, hnode⟩ := resolve_of_file? h
  have hlook : d.look t.place = some (some content) := by
    rw [look_place hresolve, hnode]
    rfl
  refine ⟨t.place, leadsTo_of_resolve hresolve hslash, ?_, fun q => ?_⟩
  . rw [hlook]
    simp
  . split
    . next heq =>
      rw [heq]
      exact hlook
    . rfl

theorem alters_erase (h : d.resolve p = .ok t) (hslash : t.slash = false)
    (hnode : ∀ entries, t.node? ≠ some (.directory entries)) :
    d.Alters p none (d.erase t.place) := by
  have hleads := leadsTo_of_resolve h hslash
  refine ⟨t.place, hleads, ?_⟩
  have hnot := not_directory_of_node? h hnode
  obtain ⟨above, name, hplace, _⟩ := exists_above_of_leadsTo hleads
  rw [hplace] at hnot ⊢
  exact erase_puts hnot

/-- A path whose last part is no name leads to a directory. -/
theorem node?_of_unnamed (h : d.resolve p = .ok t) (hnamed : t.named = false) :
    ∃ entries, t.node? = some (.directory entries) := by
  have hsound := resolve_sound h
  rw [hsound.node]
  exact look_eq_directory.mp (hsound.unnamed hnamed)

theorem create_alters (h : d.create p = .ok d') :
    d.file? p = none ∧ d.Alters p (some []) d' := by
  unfold create at h
  cases hresolve : d.resolve p with
  | error errno =>
    rw [hresolve] at h
    cases h
  | ok t =>
    rw [hresolve] at h
    change (ite _ _ _) = _ at h
    split at h
    . cases h
    next hdirectory =>
    split at h
    . cases h
    next hnone =>
    cases h
    rw [Option.not_isSome_iff_eq_none] at hnone
    have hslash : t.slash = false := by
      rw [Bool.eq_false_iff]
      intro hslash
      cases hnamed : t.named with
      | true => exact hdirectory (by rw [hnamed, hslash]; rfl)
      | false =>
        obtain ⟨entries, hentries⟩ := node?_of_unnamed hresolve hnamed
        rw [hnone] at hentries
        cases hentries
    refine ⟨?_, alters_set hresolve hslash ?_ []⟩
    . rw [file?_of_resolve hresolve hslash, hnone]
      rfl
    . rw [hnone]
      exact nofun

theorem writable_eq_ok (h : d.writable p = .ok t) :
    d.resolve p = .ok t ∧ t.slash = false ∧ ∀ entries, t.node? ≠ some (.directory entries) := by
  unfold writable at h
  cases hresolve : d.resolve p with
  | error errno =>
    rw [hresolve] at h
    cases h
  | ok t' =>
    rw [hresolve, ok_bind] at h
    split at h
    . cases h
    next hnode =>
    split at h
    . cases h
    next hslash =>
    cases h
    exact ⟨rfl, Bool.eq_false_iff.mpr hslash, hnode⟩

theorem writable_of_file? (h : d.file? p = some content) :
    ∃ t, d.writable p = .ok t ∧ t.node? = some (.file content) := by
  obtain ⟨t, hresolve, hslash, hnode⟩ := resolve_of_file? h
  refine ⟨t, ?_, hnode⟩
  unfold writable
  rw [hresolve, ok_bind, hnode]
  dsimp only
  rw [hslash]
  rfl

theorem put_alters (h : d.put p content = .ok d') : d.Alters p (some content) d' := by
  unfold put at h
  cases hwritable : d.writable p with
  | error errno =>
    rw [hwritable] at h
    cases h
  | ok t =>
    rw [hwritable] at h
    cases h
    obtain ⟨hresolve, hslash, hnode⟩ := writable_eq_ok hwritable
    exact alters_set hresolve hslash hnode content

theorem exists_put_of_file? (h : d.file? p = some content) (new : Text) :
    ∃ d', d.put p new = .ok d' := by
  obtain ⟨t, hwritable, _⟩ := writable_of_file? h
  refine ⟨d.set t.place (.file new), ?_⟩
  unfold put
  rw [hwritable]
  rfl

theorem append_alters (h : d.file? p = some content) (data : Text) :
    ∃ d', d.append p data = .ok d' ∧ d.Alters p (some (content ++ data)) d' := by
  obtain ⟨t, hwritable, hcontent⟩ := writable_of_file? h
  obtain ⟨hresolve, hslash, hnode⟩ := writable_eq_ok hwritable
  refine ⟨d.set t.place (.file (content ++ data)), ?_, alters_set hresolve hslash hnode _⟩
  unfold append
  rw [hwritable]
  change Except.ok (d.set t.place (.file (contentOf t.node? ++ data))) = _
  rw [hcontent]
  rfl

theorem touch_alters (h : d.touch p = .ok d') :
    d.Alters p (some ((d.file? p).getD [])) d' := by
  unfold touch at h
  cases hwritable : d.writable p with
  | error errno =>
    rw [hwritable] at h
    cases h
  | ok t =>
    rw [hwritable] at h
    obtain ⟨hresolve, hslash, hnode⟩ := writable_eq_ok hwritable
    have hfile := file?_of_resolve hresolve hslash
    change Except.ok (ite _ _ _) = _ at h
    match hcontent : t.node? with
    | none =>
      rw [hcontent] at h hfile
      cases h
      rw [hfile]
      exact alters_set hresolve hslash hnode []
    | some (.directory entries) => exact absurd hcontent (hnode entries)
    | some (.file content) =>
      rw [hcontent, Option.isSome_some, if_pos rfl] at h
      rw [hcontent] at hfile
      cases h
      change d.file? p = some content at hfile
      rw [hfile]
      exact alters_self hfile

theorem find_eq_ok {node : Node} (h : d.find p = .ok (t, node)) :
    d.resolve p = .ok t ∧ t.node? = some node ∧
      ∀ content, node = .file content → t.slash = false := by
  unfold find at h
  cases hresolve : d.resolve p with
  | error errno =>
    rw [hresolve] at h
    cases h
  | ok t' =>
    rw [hresolve, ok_bind] at h
    split at h
    . cases h
    . next found hfound =>
      split at h
      . cases h
      . next hslash =>
        cases h
        exact ⟨rfl, hfound, fun _ _ => Bool.eq_false_iff.mpr hslash⟩
    . next entries hfound =>
      cases h
      exact ⟨rfl, hfound, nofun⟩

theorem find_of_file? (h : d.file? p = some content) :
    ∃ t, d.find p = .ok (t, .file content) := by
  obtain ⟨t, hresolve, hslash, hnode⟩ := resolve_of_file? h
  refine ⟨t, ?_⟩
  unfold find
  rw [hresolve, ok_bind, hnode]
  dsimp only
  rw [hslash]
  rfl

theorem file?_of_find (h : d.find p = .ok (t, .file content)) : d.file? p = some content := by
  obtain ⟨hresolve, hnode, hslash⟩ := find_eq_ok h
  rw [file?_of_resolve hresolve (hslash content rfl), hnode]
  rfl

theorem remove_alters (h : d.file? p = some content) :
    ∃ d', d.remove p = .ok d' ∧ d.Alters p none d' := by
  obtain ⟨t, hfind⟩ := find_of_file? h
  obtain ⟨hresolve, hnode, hslash⟩ := find_eq_ok hfind
  refine ⟨d.erase t.place, ?_, alters_erase hresolve (hslash content rfl) ?_⟩
  . unfold remove
    rw [hfind]
  . rw [hnode]
    exact nofun

theorem link_alters {source target : Path} (h : d.link source target = .ok d') :
    ∃ content, d.file? source = some content ∧ d.file? target = none ∧
      d.Alters target (some content) d' := by
  unfold link at h
  cases hfind : d.find source with
  | error errno =>
    rw [hfind] at h
    cases h
  | ok found =>
    obtain ⟨old, node⟩ := found
    cases hresolve : d.resolve target with
    | error errno =>
      rw [hfind, hresolve] at h
      cases h
    | ok new =>
      rw [hfind, hresolve] at h
      change (ite _ _ _) = _ at h
      split at h
      . cases h
      next hnone =>
      split at h
      . cases h
      next hslash =>
      rw [Option.not_isSome_iff_eq_none] at hnone
      rw [Bool.not_eq_true] at hslash
      cases node with
      | directory entries => cases h
      | file content =>
        cases h
        refine ⟨content, file?_of_find hfind, ?_, alters_set hresolve hslash ?_ content⟩
        . rw [file?_of_resolve hresolve hslash, hnone]
          rfl
        . rw [hnone]
          exact nofun

theorem rename_alters {source target : Path} (h : d.rename source target = .ok d') :
    ∃ content d₁, d.file? source = some content ∧ d.Alters source none d₁ ∧
      d₁.Alters target (some content) d' := by
  unfold rename at h
  cases hsource : d.resolve source with
  | error errno =>
    rw [hsource] at h
    cases h
  | ok old =>
    cases htarget : d.resolve target with
    | error errno =>
      rw [hsource, htarget] at h
      cases h
    | ok new =>
      rw [hsource, htarget] at h
      change (ite _ _ _) = _ at h
      split at h
      . cases h
      split at h
      . cases h
      . cases h
      next content hcontent =>
      split at h
      . dsimp only at h
        split at h
        . cases h
        . cases h
      next hnode =>
      dsimp only at h
      split at h
      . cases h
      next hslash =>
      cases h
      rw [Bool.not_eq_true, Bool.or_eq_false_iff] at hslash
      have hfile : d.file? source = some content := by
        rw [file?_of_resolve hsource hslash.1, hcontent]
        rfl
      have hold : d.Alters source none (d.erase old.place) := by
        apply alters_erase hsource hslash.1
        rw [hcontent]
        exact nofun
      refine ⟨content, d.erase old.place, hfile, hold, ?_⟩
      -- The directories are where they were, so the new name still leads to the same place.
      have hnew := leadsTo_of_resolve htarget hslash.2
      rw [← leadsTo_congr hold.sameDirectories target] at hnew
      obtain ⟨t, hresolve, hslash', hplace⟩ := leadsTo_eq_some.mp hnew
      rw [← hplace]
      apply alters_set hresolve hslash'
      intro entries hentries
      rw [(resolve_sound hresolve).node, hplace] at hentries
      have hdirectory := (hold.sameDirectories new.place).mp (look_eq_directory.mpr ⟨_, hentries⟩)
      rw [look_eq_directory, ← (resolve_sound htarget).node] at hdirectory
      obtain ⟨entries', hentries'⟩ := hdirectory
      exact hnode entries' hentries'

/-- What is read where a path leads to. A directory reads as empty. -/
theorem read_of_resolve (h : d.resolve p = .ok t) :
    d.read p = .ok (if d.look t.place = some none then some []
      else if t.slash then none else (d.look t.place).join) := by
  unfold read find? find
  rw [h, ok_bind, look_place h]
  match t.node? with
  | none => cases t.slash <;> rfl
  | some (.directory entries) => rfl
  | some (.file content) => cases t.slash <;> rfl

theorem read_of_file? (h : d.file? p = some content) : d.read p = .ok (some content) := by
  obtain ⟨t, hresolve, hslash, hnode⟩ := resolve_of_file? h
  rw [read_of_resolve hresolve, look_place hresolve, hnode, hslash]
  rfl

/-- Where there was a file and is none any more, nothing is read. -/
theorem read_of_gone (hsame : d.SameDirectories d') (hfile : d.file? p ≠ none)
    (hgone : d'.file? p = none) : d'.read p = .ok none := by
  obtain ⟨content, hcontent⟩ := Option.ne_none_iff_exists'.mp hfile
  obtain ⟨t, hresolve, hslash, hnode⟩ := resolve_of_file? hcontent
  have hleads := (leadsTo_congr hsame p).trans (leadsTo_of_resolve hresolve hslash)
  rw [file?_of_leadsTo hleads] at hgone
  obtain ⟨t', hresolve', hslash', hplace⟩ := leadsTo_eq_some.mp hleads
  have hdirectory : d'.look t.place ≠ some none := by
    rw [Ne, hsame t.place, look_place hresolve, hnode]
    exact nofun
  rw [read_of_resolve hresolve', hplace, if_neg hdirectory, hslash', hgone]
  rfl

/-- What is read is the file, unless there is none or something is in its way. -/
theorem read_eq_file? (d : Disk) (p : Path) :
    d.read p = .ok (d.file? p) ∨
      d.file? p = none ∧ ∀ content, d.read p = .ok (some content) → content = [] := by
  cases hfile : d.file? p with
  | some content => exact .inl (read_of_file? hfile)
  | none =>
    refine .inr ⟨rfl, ?_⟩
    intro content hread
    cases hresolve : d.resolve p with
    | error errno =>
      unfold read find? find at hread
      rw [hresolve] at hread
      cases errno <;> cases hread
    | ok t =>
      rw [read_of_resolve hresolve] at hread
      split at hread
      . cases hread
        rfl
      split at hread
      . cases hread
      . next hslash =>
        rw [Bool.not_eq_true] at hslash
        rw [← file?_of_leadsTo (leadsTo_of_resolve hresolve hslash), hfile] at hread
        cases hread

theorem read_congr (hsame : d.SameDirectories d') (hfile : d'.file? p = d.file? p) :
    d'.read p = d.read p := by
  have halike := resolve_alike hsame p
  cases hresolve : d.resolve p with
  | error errno =>
    cases hresolve' : d'.resolve p with
    | ok t' =>
      rw [hresolve, hresolve'] at halike
      cases halike
    | error errno' =>
      rw [hresolve, hresolve'] at halike
      unfold read find? find
      rw [hresolve, hresolve']
      cases halike with
      | error => rfl
      | lost h h' => obtain rfl | rfl := h <;> obtain rfl | rfl := h' <;> rfl
  | ok t =>
    cases hresolve' : d'.resolve p with
    | error errno' =>
      rw [hresolve, hresolve'] at halike
      cases halike
    | ok t' =>
      rw [hresolve, hresolve'] at halike
      cases halike with
      | ok htrail hslash hnamed =>
        have hplace : t'.place = t.place := congrArg List.reverse htrail
        rw [read_of_resolve hresolve, read_of_resolve hresolve', hplace, hslash]
        simp only [hsame t.place]
        cases hslashed : t.slash with
        | true => rfl
        | false =>
          rw [file?_of_leadsTo (leadsTo_of_resolve hresolve hslashed),
            file?_of_leadsTo (leadsTo_of_resolve hresolve' (hslash.trans hslashed)), hplace]
            at hfile
          rw [hfile]

/-- A place holds what it held if the file that a path names there is the same. -/
theorem look_congr (hsame : d.SameDirectories d') {place : Place} (h : d.leadsTo p = some place)
    (hfile : d'.file? p = d.file? p) : d'.look place = d.look place := by
  rw [file?_of_leadsTo h, file?_of_leadsTo ((leadsTo_congr hsame p).trans h)] at hfile
  by_cases hdirectory : d.look place = some none
  . rw [hdirectory]
    exact (hsame place).mpr hdirectory
  . have hdirectory' := mt (hsame place).mp hdirectory
    revert hfile hdirectory hdirectory'
    rcases d.look place with _ | _ | content <;> rcases d'.look place with _ | _ | content' <;> simp

end SchemaMigration.Disk

import SchemaMigration.Proofs.Machine.Directories

/-!
This module contains what happens when a file is added to a directory, which may have to be created
first: the file gets its place in this directory, and all else on the disk is as it was.
-/

namespace SchemaMigration

namespace Disk

variable {d d' : Disk} {t : Target}

theorem parts_append_slash (p : Path) : parts (p ++ [byte '/']) = parts p := by
  unfold parts
  rw [Text.splitOn_append_separator]
  simp [Text.splitOn]

theorem walk_concat {t₁ : Target} {ps : List Text} (h : d.walk t ps = .ok t₁) (part : Text) :
    d.walk t (ps ++ [part]) = d.step t₁ part := by
  induction ps generalizing t with
  | nil =>
    cases h
    rw [List.nil_append]
    unfold walk
    split
    . next hstep => exact hstep.symm
    . next hstep => exact hstep.symm
  | cons first rest ih =>
    rw [List.cons_append]
    unfold walk at h ⊢
    split at h
    . cases h
    . exact ih h

end Disk

namespace Path

variable {directory : Path} {name : Text}

theorem join_eq_append (hne : directory ≠ []) (name : Text) :
    ∃ above, directory.join name = above ++ byte '/' :: name ∧
      (directory = above ∨ directory = above ++ [byte '/']) := by
  unfold join
  cases hlast : directory.getLast? with
  | none => exact absurd (List.getLast?_eq_none_iff.mp hlast) hne
  | some last =>
    dsimp only
    split
    . next hslash =>
      obtain ⟨above, habove⟩ := List.getLast?_eq_some_iff.mp hlast
      rw [beq_iff_eq.mp hslash] at habove
      refine ⟨above, ?_, .inr habove⟩
      rw [habove, List.append_assoc]
      rfl
    . exact ⟨directory, rfl, .inl rfl⟩

/-- A file in a directory has the directory as its folder. -/
theorem fileName_join (hne : directory ≠ []) (hslash : byte '/' ∉ name) :
    (directory.join name).fileName = name ∧
      Disk.parts (directory.join name).folder = Disk.parts directory := by
  obtain ⟨above, hjoin, habove⟩ := join_eq_append hne name
  rw [hjoin, List.append_cons]
  have hfolder : folder (above ++ [byte '/'] ++ name) = above ++ [byte '/'] := by
    rw [folder_append hslash]
    simp [folder]
  constructor
  . have happend := folder_append_fileName (above ++ [byte '/'] ++ name)
    rw [hfolder] at happend
    exact List.append_cancel_left happend
  . rw [hfolder, Disk.parts_append_slash]
    obtain rfl | rfl := habove
    . rfl
    . exact (Disk.parts_append_slash above).symm

theorem beforeNul_join (hzero : 0 ∈ directory) (name : Text) :
    (directory.join name).beforeNul = directory.beforeNul := by
  unfold join
  split
  . next hnil =>
    rw [List.getLast?_eq_none_iff.mp hnil] at hzero
    cases hzero
  . split
    . exact Text.beforeNul_append hzero _
    . exact Text.beforeNul_append hzero _

theorem zero_not_mem_join (hdirectory : 0 ∉ directory) (hname : 0 ∉ name) :
    0 ∉ directory.join name := by
  unfold join
  split
  . exact hname
  . split
    . simp [hdirectory, hname]
    . have hslash : (0 : UInt8) ≠ byte '/' := by decide
      simp [hdirectory, hname, hslash]

theorem length_lt_join (hname : name ≠ []) (directory : Path) :
    directory.length < (directory.join name).length := by
  have hpos := List.length_pos_iff.mpr hname
  unfold join
  split
  . next hnil =>
    rw [List.getLast?_eq_none_iff.mp hnil]
    exact hpos
  . split
    . rw [List.length_append]
      omega
    . rw [List.length_append, List.length_cons]
      omega

end Path

namespace Disk

variable {d d' : Disk} {directory : Path} {name : Text}

structure IsFileName (name : Text) : Prop where
  ne_nil : name ≠ []
  zero : 0 ∉ name
  slash : byte '/' ∉ name
  dots : isDots name = false

theorem getLast?_join (hname : IsFileName name) (directory : Path) :
    (directory.join name).getLast? ≠ some (byte '/') := by
  intro hlast
  obtain ⟨above, hjoin⟩ : ∃ above, directory.join name = above ++ name := by
    unfold Path.join
    split
    . exact ⟨[], rfl⟩
    . split
      . exact ⟨_, rfl⟩
      . exact ⟨_, List.append_cons _ _ _⟩
  rw [hjoin, List.getLast?_append_of_ne_nil _ hname.ne_nil] at hlast
  exact hname.slash (List.mem_of_getLast? hlast)

theorem parts_join (hname : IsFileName name) (hne : directory ≠ []) :
    parts (directory.join name) = parts directory ++ [name] := by
  obtain ⟨hfile, hfolder⟩ := Path.fileName_join hne hname.slash
  have hjoin : directory.join name ≠ [] := by
    have hlength := Path.length_lt_join hname.ne_nil directory
    rw [← List.length_pos_iff]
    omega
  rw [parts_eq_concat hjoin (getLast?_join hname directory), hfile, hfolder]

/-- The place of a file in a directory is the place of its name in that of the directory. -/
theorem leadsTo_join (hname : IsFileName name) (hzero : 0 ∉ directory) (hne : directory ≠ [])
    {place : Place} (h : d.leadsTo (directory.join name) = some place) :
    ∃ t, d.resolve directory = .ok t ∧ d.look t.place = some none ∧ place = t.place ++ [name] := by
  obtain ⟨t, hresolve, hslash, rfl⟩ := leadsTo_eq_some.mp h
  have hbefore := Text.beforeNul_eq_self (Path.zero_not_mem_join hzero hname.zero)
  obtain ⟨above, last, hplace, habove⟩ := exists_above_of_leadsTo h
  obtain ⟨t₁, hwalk, htrail, _⟩ := resolve_unslashed hresolve hslash
  have hlength := length_lt_of_resolve hresolve
  obtain ⟨hfile, hfolder⟩ := Path.fileName_join hne hname.slash
  rw [hbefore] at hwalk htrail hlength
  rw [hfolder] at hwalk
  have hdirectory := Text.beforeNul_eq_self hzero
  have hplace' : t.place = t₁.place ++ [name] := by
    unfold Target.place
    rw [htrail, hfile, List.reverse_cons]
  rw [hplace'] at hplace
  obtain ⟨rfl, _⟩ := List.append_inj' hplace rfl
  refine ⟨_, resolve_of_walk ?_ ?_ ?_, habove, hplace'⟩
  . rw [hdirectory]
    exact hne
  . rw [hdirectory]
    exact Nat.lt_trans (Path.length_lt_join hname.ne_nil directory) hlength
  . rw [hdirectory]
    exact hwalk

theorem step_of_directory {t : Target} {entries : Directory}
    (hnode : t.node? = some (.directory entries)) (hname : isDots name = false) :
    d.step t name = if maxName < name.length then .error .nameTooLong
      else .ok ⟨name :: t.trail, entries.entry? name, false, true⟩ := by
  rw [isDots, Bool.or_eq_false_iff] at hname
  unfold step
  rw [hnode]
  simp only [hname.1, hname.2, Bool.false_eq_true, if_false]

/-- A file in a directory is found, unless its name or its path is too long. -/
theorem resolve_join {t : Target} (hname : IsFileName name) (hzero : 0 ∉ directory)
    (hresolve : d.resolve directory = .ok t) (hlook : d.look t.place = some none) :
    d.resolve (directory.join name) = .error .nameTooLong ∨
      d.resolve (directory.join name) =
        .ok ⟨name :: t.trail, d.get? (t.place ++ [name]), false, true⟩ := by
  have hne := LeadsToDirectory.ne_nil ⟨t, hresolve, hlook⟩
  have hjoin : directory.join name ≠ [] :=
    List.ne_nil_of_length_pos (Nat.zero_lt_of_lt (Path.length_lt_join hname.ne_nil directory))
  have hlast := getLast?_join hname directory
  obtain ⟨entries, hentries⟩ := look_eq_directory.mp hlook
  have hget : d.get? (t.place ++ [name]) = entries.entry? name :=
    Directory.get?_concat hentries name
  rw [hget]
  obtain ⟨_, t₁, hwalk, rfl⟩ := resolve_eq_ok hresolve
  rw [Text.beforeNul_eq_self hzero] at hwalk
  have hnode := (walk_sound d.start_sound hwalk).node.trans hentries
  replace hwalk := walk_concat hwalk name
  rw [← parts_join hname hne, step_of_directory hnode hname.dots] at hwalk
  have hbefore := Text.beforeNul_eq_self (Path.zero_not_mem_join hzero hname.zero)
  rw [← hbefore] at hwalk hjoin hlast
  by_cases hpath : (directory.join name).beforeNul.length < maxPath
  . split at hwalk
    . left
      unfold start at hwalk
      unfold resolve
      split
      . next hnil => exact absurd hnil hjoin
      . rw [if_neg (Nat.not_le.mpr hpath), hwalk]
    . right
      rw [resolve_of_walk hjoin hpath hwalk, beq_eq_false_iff_ne.mpr hlast]
      rfl
  . left
    unfold resolve
    split
    . next hnil => exact absurd hnil hjoin
    . rw [if_pos (Nat.not_lt.mp hpath)]

/-- Where nothing is found and nothing is too long, a file can be put into a directory. -/
theorem exists_put_ok (hname : IsFileName name) (h : d.LeadsToDirectory directory)
    (hnone : d.find? (directory.join name) = .ok none) (content : Text) :
    ∃ d', d.put (directory.join name) content = .ok d' := by
  by_cases hzero : 0 ∈ directory
  . obtain ⟨entries, hfound⟩ := h.find?_eq
    rw [find?_congr (Path.beforeNul_join hzero name), hfound] at hnone
    cases hnone
  obtain ⟨t, hresolve, hlook⟩ := h
  unfold find? find at hnone
  obtain hlong | hjoin := resolve_join hname hzero hresolve hlook
  . rw [hlong] at hnone
    cases hnone
  . rw [hjoin, ok_bind] at hnone
    dsimp only at hnone
    refine ⟨d.set (t.place ++ [name]) (.file content), ?_⟩
    unfold put writable
    rw [hjoin, ok_bind]
    dsimp only
    cases hnode : d.get? (t.place ++ [name]) with
    | some node =>
      rw [hnode] at hnone
      cases node with
      | file content => cases hnone
      | directory entries => cases hnone
    | none =>
      change Except.ok (d.set (name :: t.trail).reverse (.file content)) = _
      rw [List.reverse_cons]
      rfl

/-- What is not found is not there. -/
theorem look_of_find?_none {path : Path} {place : Place} (hnone : d.find? path = .ok none)
    (h : d.leadsTo path = some place) : d.look place = none := by
  obtain ⟨t, hresolve, hslash, rfl⟩ := leadsTo_eq_some.mp h
  rw [look_place hresolve]
  unfold find? find at hnone
  rw [hresolve, ok_bind] at hnone
  cases hnode : t.node? with
  | none => rfl
  | some node =>
    rw [hnode] at hnone
    cases node with
    | file content =>
      simp only [hslash, Bool.false_eq_true, if_false] at hnone
      cases hnone
    | directory entries => cases hnone

/--
A file has been added to a directory, which is in the place `above`. Directories may have been
created for that; all else is as it was.
-/
structure Adds (d : Disk) (directory : Path) (name content : Text) (above : Place) (d' : Disk) :
    Prop where
  directory_eq : ∃ t, d'.resolve directory = .ok t ∧ t.place = above ∧ d'.look above = some none
  leadsTo_eq : d'.leadsTo (directory.join name) = some (above ++ [name])
  absent : d.look (above ++ [name]) = none
  present : d'.look (above ++ [name]) = some (some content)
  look_eq_or : ∀ place, place ≠ above ++ [name] → d'.look place = d.look place ∨
    d.look place = none ∧ d'.look place = some none

theorem adds_of_alters {content : Text} {isNew : Bool} {d₁ : Disk} (hname : IsFileName name)
    (hmake : d.makeDirectories directory = (.ok isNew, d₁))
    (hnone : d₁.find? (directory.join name) = .ok none)
    (halters : d₁.Alters (directory.join name) (some content) d') :
    ∃ t, d₁.resolve directory = .ok t ∧ d.Adds directory name content t.place d' := by
  have hgrows := makeDirectories_grows hmake
  have hne : directory ≠ [] := by
    rintro rfl
    cases hmake
  -- With a zero byte the path of the file would be seen as that of the directory.
  have hzero : 0 ∉ directory := by
    intro hzero
    obtain ⟨entries, hfound⟩ := (makeDirectories_leadsTo_of_zero hzero hmake).find?_eq
    rw [find?_congr (Path.beforeNul_join hzero name), hfound] at hnone
    cases hnone
  obtain ⟨place, hleads, hputs⟩ := halters
  have hsame := hputs.sameDirectories
  obtain ⟨t, hresolve, hlook, rfl⟩ := leadsTo_join hname hzero hne hleads
  refine ⟨t, hresolve, ?_, ?_, ?_, ?_, ?_⟩
  . have halike := resolve_alike hsame directory
    rw [hresolve] at halike
    generalize hresolve' : d'.resolve directory = result at halike
    cases halike with
    | @ok _ t' htrail _ _ =>
      exact ⟨t', rfl, congrArg List.reverse htrail, (hsame t.place).mpr hlook⟩
  . rw [leadsTo_congr hsame]
    exact hleads
  . have habsent := look_of_find?_none hnone hleads
    obtain hsame | ⟨hnone, _⟩ := hgrows.look_eq_or (t.place ++ [name])
    . exact hsame.symm.trans habsent
    . exact hnone
  . rw [hputs.look_eq, if_pos rfl]
    rfl
  . intro place hplace
    rw [hputs.look_eq, if_neg hplace]
    exact hgrows.look_eq_or place

theorem Adds.look_eq_file_iff {content : Text} {above : Place}
    (h : d.Adds directory name content above d') {place : Place} (hplace : place ≠ above ++ [name])
    {other : Text} : d'.look place = some (some other) ↔ d.look place = some (some other) := by
  obtain hlook | ⟨hnone, hnew⟩ := h.look_eq_or place hplace
  . rw [hlook]
  . simp [hnone, hnew]

end Disk

end SchemaMigration

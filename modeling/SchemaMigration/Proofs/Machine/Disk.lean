import Mathlib.Data.List.Basic
import SchemaMigration.Machine.Disk

/-!
This module contains what the places of a disk hold, and how that changes when a file is put in a
place or a place is emptied: all other places keep what they hold.
-/

namespace SchemaMigration

def Node.content? : Node → Option Text
  | file content => some content
  | directory _ => none

namespace Directory

theorem entry?_file (first content name : Text) (rest : Directory) :
    entry? (.file first content rest) name =
      if first = name then some (.file content) else rest.entry? name := by
  simp only [beq_iff_eq, entry?]

theorem entry?_directory (first name : Text) (inner rest : Directory) :
    entry? (.directory first inner rest) name =
      if first = name then some (.directory inner) else rest.entry? name := by
  simp only [beq_iff_eq, entry?]

theorem entry?_drop (d : Directory) (name other : Text) :
    entry? (d.drop name) other = if other = name then none else d.entry? other := by
  induction d with
  | empty => exact (ite_self none).symm
  | file first content rest ih =>
    unfold drop
    split
    . next hfirst =>
      rw [ih, entry?_file]
      grind
    . next hfirst =>
      rw [entry?_file, entry?_file, ih]
      grind
  | directory first inner rest _ ih =>
    unfold drop
    split
    . next hfirst =>
      rw [ih, entry?_directory]
      grind
    . next hfirst =>
      rw [entry?_directory, entry?_directory, ih]
      grind

theorem entry?_add (d : Directory) (name : Text) (node : Node) (other : Text) :
    entry? (d.add name node) other = if other = name then some node else d.entry? other := by
  unfold add
  cases node with
  | file content =>
    rw [entry?_file, entry?_drop]
    grind
  | directory inner =>
    rw [entry?_directory, entry?_drop]
    grind

/-- What a place below a directory holds, directories without their entries. -/
def look (d : Directory) (place : Place) : Option (Option Text) := (d.get? place).map Node.content?

@[simp]
theorem look_nil (d : Directory) : d.look [] = some none := rfl

def lookBelow : Option Node → Place → Option (Option Text)
  | none, _ => none
  | some (.file content), rest => if rest = [] then some (some content) else none
  | some (.directory inner), rest => inner.look rest

theorem look_cons (d : Directory) (name : Text) (rest : Place) :
    d.look (name :: rest) = lookBelow ( d.entry? name) rest := by
  unfold look get?
  split
  . next h => rw [h]; rfl
  . next content h =>
    rw [h]
    cases rest with
    | nil => rfl
    | cons first rest => rfl
  . next inner h => rw [h]; rfl

theorem lookBelow_nil_eq_directory {node? : Option Node} :
    lookBelow node? [] = some none ↔ ∃ inner, node? = some (.directory inner) := by
  match node? with
  | none => simp [lookBelow]
  | some (.file content) => simp [lookBelow]
  | some (.directory inner) => simp [lookBelow]

/-- Below what is not a directory there is nothing. -/
theorem lookBelow_cons {node? : Option Node} (h : lookBelow node? [] ≠ some none) (name : Text)
    (rest : Place) : lookBelow node? (name :: rest) = none := by
  match node? with
  | none => rfl
  | some (.file content) => rfl
  | some (.directory inner) => exact absurd rfl h

/-- A place that holds something lies below directories only. -/
theorem exists_directory_of_look_cons {d : Directory} {name next : Text} {rest : Place}
    (h : d.look (name :: next :: rest) ≠ none) :
    ∃ inner, d.entry? name = some (.directory inner) := by
  rw [look_cons] at h
  rw [← lookBelow_nil_eq_directory]
  by_contra hnot
  exact h (lookBelow_cons hnot next rest)

/-- The entry of a name, not that of a directory, is given to a file or taken away. -/
theorem look_of_entry_eq {d d' : Directory} {name : Text} {node? : Option Node}
    {new : Option (Option Text)} (hnot : d.look [name] ≠ some none)
    (hentry : ∀ other, d'.entry? other = if other = name then node? else d.entry? other)
    (hnode : ∀ below, lookBelow node? below = if below = [] then new else none) (q : Place) :
    d'.look q = if q = [name] then new else d.look q := by
  rw [look_cons] at hnot
  cases q with
  | nil => simp
  | cons other below =>
    rw [look_cons, hentry, look_cons]
    by_cases hother : other = name
    . subst hother
      rw [if_pos rfl, hnode]
      cases below with
      | nil => simp
      | cons first below => simp [lookBelow_cons hnot]
    . simp [hother]

/-- A change below a directory is one below the directory that has it as an entry. -/
theorem look_add_directory {d inner inner' : Directory} {name : Text} {place : Place}
    {new : Option (Option Text)} (hinner : d.entry? name = some (.directory inner))
    (h : ∀ q, inner'.look q = if q = place then new else inner.look q) (q : Place) :
    (d.add name (.directory inner')).look q = if q = name :: place then new else d.look q := by
  cases q with
  | nil => simp
  | cons other below =>
    rw [look_cons, entry?_add, look_cons]
    by_cases hother : other = name
    . subst hother
      simp only [if_true, hinner, lookBelow]
      rw [h below]
      simp
    . simp [hother]

/-- A node with nothing below it is put in a place that is not that of a directory. -/
theorem look_set_node {d : Directory} {node : Node} {place : Place} {new : Option (Option Text)}
    (hne : place ≠ []) (hparent : d.look place.dropLast = some none)
    (hnot : d.look place ≠ some none)
    (hnode : ∀ below, lookBelow (some node) below = if below = [] then new else none) (q : Place) :
    (d.set node place).look q = if q = place then new else d.look q := by
  induction place generalizing d q with
  | nil => exact absurd rfl hne
  | cons name rest ih =>
    cases rest with
    | nil => exact look_of_entry_eq hnot (entry?_add d name _) hnode q
    | cons next rest =>
      obtain ⟨inner, hinner⟩ : ∃ inner, d.entry? name = some (.directory inner) := by
        rw [List.dropLast_cons_cons] at hparent
        cases hdrop : (next :: rest).dropLast with
        | nil =>
          rw [hdrop, look_cons] at hparent
          exact lookBelow_nil_eq_directory.mp hparent
        | cons first below =>
          rw [hdrop] at hparent
          exact exists_directory_of_look_cons (ne_of_eq_of_ne hparent nofun)
      rw [List.dropLast_cons_cons, look_cons, hinner] at hparent
      rw [look_cons, hinner] at hnot
      simp only [set, hinner]
      exact look_add_directory hinner (ih (List.cons_ne_nil next rest) hparent hnot) q

theorem look_set {d : Directory} {place : Place} (hne : place ≠ [])
    (hparent : d.look place.dropLast = some none) (hnot : d.look place ≠ some none) (content : Text)
    (q : Place) :
    (d.set (.file content) place).look q =
      if q = place then some (some content) else d.look q :=
  look_set_node hne hparent hnot (fun _ => rfl) q

theorem look_erase {d : Directory} {place : Place} (hne : place ≠ [])
    (hnot : d.look place ≠ some none) (q : Place) :
    (d.erase place).look q = if q = place then none else d.look q := by
  induction place generalizing d q with
  | nil => exact absurd rfl hne
  | cons name rest ih =>
    cases rest with
    | nil => exact look_of_entry_eq hnot (entry?_drop d name) (fun _ => (ite_self none).symm) q
    | cons next rest =>
      simp only [erase]
      split
      . next inner hinner =>
        rw [look_cons, hinner] at hnot
        exact look_add_directory hinner (ih (List.cons_ne_nil next rest) hnot) q
      . next hfile =>
        split
        . next heq =>
          rw [heq]
          by_contra hsome
          obtain ⟨inner, hinner⟩ := exists_directory_of_look_cons hsome
          exact hfile inner hinner
        . rfl

theorem get?_concat {d inner : Directory} {place : Place}
    (h : d.get? place = some (.directory inner)) (name : Text) :
    d.get? (place ++ [name]) = inner.entry? name := by
  induction place generalizing d with
  | nil =>
    cases h
    rw [List.nil_append]
    unfold get?
    split
    . next hnone => rw [hnone]
    . next hfile => rw [hfile]; rfl
    . next hdirectory => rw [hdirectory]; rfl
  | cons first rest ih =>
    rw [List.cons_append]
    unfold get? at h ⊢
    split at h
    . cases h
    . split at h
      . cases h
      . cases h
    . next below hbelow => exact ih h

/-- A place that holds something lies in a directory. -/
theorem look_of_look_concat {d : Directory} {place : Place} {name : Text}
    (h : d.look (place ++ [name]) ≠ none) : d.look place = some none := by
  induction place generalizing d with
  | nil => rfl
  | cons first rest ih =>
    rw [List.cons_append, look_cons] at h
    rw [look_cons]
    match hfirst : d.entry? first with
    | none =>
      rw [hfirst] at h
      exact absurd rfl h
    | some (.file content) =>
      rw [hfirst] at h
      simp [lookBelow] at h
    | some (.directory inner) =>
      rw [hfirst] at h
      exact ih h

end Directory

namespace Disk

variable {d d' : Disk}

def look (d : Disk) (place : Place) : Option (Option Text) := d.root.look place

theorem look_eq_directory {place : Place} :
    d.look place = some none ↔ ∃ entries, d.get? place = some (.directory entries) := by
  unfold look Directory.look Disk.get?
  match d.root.get? place with
  | none => simp
  | some (.file content) => simp [Node.content?]
  | some (.directory entries) => simp [Node.content?]

def SameDirectories (d d' : Disk) : Prop :=
  ∀ place, d'.look place = some none ↔ d.look place = some none

/-- A place, not that of a directory, is given a file with a content, or emptied. -/
structure Puts (d : Disk) (place : Place) (content? : Option Text) (d' : Disk) : Prop where
  not_directory : d.look place ≠ some none
  look_eq : ∀ q, d'.look q = if q = place then content?.map some else d.look q

theorem Puts.sameDirectories {place : Place} {content? : Option Text}
    (h : d.Puts place content? d') : d.SameDirectories d' := by
  intro q
  rw [h.look_eq]
  split
  . next heq =>
    subst heq
    cases content? with
    | none => simpa using h.not_directory
    | some content => simpa using h.not_directory
  . rfl

theorem SameDirectories.refl (d : Disk) : d.SameDirectories d := fun _ => Iff.rfl

theorem SameDirectories.symm (h : d.SameDirectories d') : d'.SameDirectories d :=
  fun place => (h place).symm

theorem SameDirectories.trans {d'' : Disk} (h : d.SameDirectories d')
    (h' : d'.SameDirectories d'') : d.SameDirectories d'' :=
  fun place => (h' place).trans (h place)

theorem set_puts {above : Place} {name : Text} (habove : d.look above = some none)
    (hnot : d.look (above ++ [name]) ≠ some none) (content : Text) :
    d.Puts (above ++ [name]) (some content) (d.set (above ++ [name]) (.file content)) where
  not_directory := hnot
  look_eq := by
    apply Directory.look_set (by simp) _ hnot
    rw [List.dropLast_concat]
    exact habove

theorem erase_puts {above : Place} {name : Text} (hnot : d.look (above ++ [name]) ≠ some none) :
    d.Puts (above ++ [name]) none (d.erase (above ++ [name])) where
  not_directory := hnot
  look_eq := Directory.look_erase (by simp) hnot

end Disk

end SchemaMigration

import Mathlib.Data.List.Basic
import SchemaMigration.Log

/-!
This module contains what is read off the records that a log has written: what the records of an
action of the audit trail tell, and the records that tell of migrations and of the ledger.
-/

namespace SchemaMigration.Log

def Apart (s t : Text) : Prop := ¬ s <+: t ∧ ¬ t <+: s

instance (s t : Text) : Decidable (Apart s t) := inferInstanceAs (Decidable (_ ∧ _))

theorem Apart.not_prefix_append {s t : Text} (h : Apart s t) (u : Text) : ¬ s <+: t ++ u := by
  intro hs
  cases List.prefix_or_prefix_of_prefix hs (List.prefix_append t u) with
  | inl hst => exact h.1 hst
  | inr hts => exact h.2 hts

def auditMark : Text := ascii "audit action="

def actionMark (action : Text) : Text := auditMark ++ action ++ [byte ' ']

def actions (action : Text) (records : List Record) : List Text :=
  records.filterMap (·.text.dropPrefix? (actionMark action))

/-- Whether an entry does not tell of migrations or the ledger, but of a lock at most. -/
def Entry.isAside : Entry → Bool
  | message _ text _ => Apart auditMark text
  | audit action fields => action == ascii "lease.takeover" && !fields.isEmpty

@[inherit_doc Entry.isAside]
def Record.isAside (r : Record) : Bool :=
  !auditMark.isPrefixOf r.text || (actionMark (ascii "lease.takeover")).isPrefixOf r.text

/-- What may be written of an entry: its record, or nothing if it is a message. -/
def Entry.MayWrite (e : Entry) (records : List Record) : Prop :=
  records = [e.record] ∨ e.isAudit = false ∧ records = []

def trail (records : List Record) : List Record := records.filter (!·.isAside)

@[simp]
theorem trail_nil : trail [] = [] := rfl

@[simp]
theorem trail_append (records records' : List Record) :
    trail (records ++ records') = trail records ++ trail records' :=
  List.filter_append records records'

theorem Entry.record_audit (action : Text) (field : Field) (fields : List Field) :
    (Entry.audit action (field :: fields)).record =
      ⟨.info, actionMark action ++ Text.join [byte ' '] ((field :: fields).map Field.render)⟩ := by
  simp [Entry.record, withFields, actionMark, auditMark]

/-- A message that does not look like the audit trail is not part of it with its fields, either. -/
theorem not_prefix_withFields {text : Text} (h : Apart auditMark text) (fields : List Field) :
    ¬ auditMark <+: withFields text fields := by
  unfold withFields
  split
  . exact h.1
  . exact h.not_prefix_append _

theorem Entry.isAside_message {level : Level} {text : Text} {fields : List Field}
    (h : Apart auditMark text) : (Entry.message level text fields).isAside = true :=
  decide_eq_true h

theorem Entry.isAside_record {e : Entry} (h : e.isAside = true) : e.record.isAside = true := by
  cases e with
  | message level text fields =>
    have htext := not_prefix_withFields (of_decide_eq_true h) fields
    rw [← List.isPrefixOf_iff_prefix, Bool.not_eq_true] at htext
    simp [Record.isAside, Entry.record, htext]
  | audit action fields =>
    rw [isAside, Bool.and_eq_true, beq_iff_eq] at h
    obtain ⟨rfl, hfields⟩ := h
    cases fields with
    | nil => cases hfields
    | cons field fields =>
      rw [Record.isAside, Bool.or_eq_true, List.isPrefixOf_iff_prefix, record_audit]
      exact .inr (List.prefix_append _ _)

section Filter

variable {f : Filter}

theorem filterMap_record? (f : Filter) (entries : List Entry) :
    entries.filterMap f.record? = (entries.filter f.admits).map Entry.record := by
  induction entries with
  | nil => rfl
  | cons entry entries ih =>
    rw [List.filterMap_cons, List.filter_cons, Filter.record?]
    split
    . next hadmits => simp_all
    . next hadmits => simp_all

/-- With the audit trail on, every action is written if a message of the normal course would be. -/
theorem Filter.record?_audit (haudit : f.audit = true) (hsink : f.sink = true)
    (hlevel : f.threshold.rank ≤ Level.info.rank) (action : Text) (fields : List Field) :
    f.record? (.audit action fields) = some (Entry.audit action fields).record := by
  unfold record? admits
  rw [hsink, haudit, Bool.true_and, Bool.true_or, Bool.and_true, if_pos]
  exact decide_eq_true hlevel

/-- A filter that lets the audit trail through writes it, and some of the messages. -/
theorem Filter.mayWrite
    (h : ∀ action fields,
      f.record? (.audit action fields) = some (Entry.audit action fields).record)
    (e : Entry) : e.MayWrite ([e].filterMap f.record?) := by
  cases e with
  | audit action fields =>
    rw [List.filterMap_cons, h]
    exact .inl rfl
  | message level text fields =>
    rw [List.filterMap_cons, Filter.record?]
    split
    . exact .inr ⟨rfl, rfl⟩
    . next hsome =>
      split at hsome
      . cases hsome
        exact .inl rfl
      . cases hsome

end Filter

theorem trail_of_aside {entries : List Entry} (h : ∀ e ∈ entries, e.isAside = true) (f : Filter) :
    trail (entries.filterMap f.record?) = [] := by
  rw [filterMap_record?, trail, List.filter_eq_nil_iff, List.forall_mem_map]
  intro e he
  simp [Entry.isAside_record (h e (List.mem_of_mem_filter he))]

theorem trail_of_mayWrite {e : Entry} {records : List Record} (h : e.MayWrite records)
    (haside : e.isAside = true) : trail records = [] := by
  cases h with
  | inl hwritten =>
    rw [hwritten]
    simp [trail, e.isAside_record haside]
  | inr hnothing => rw [hnothing.2, trail_nil]

section Actions

variable {action : Text}

@[simp]
theorem actions_nil (action : Text) : actions action [] = [] := rfl

@[simp]
theorem actions_append (action : Text) (records records' : List Record) :
    actions action (records ++ records') = actions action records ++ actions action records' :=
  List.filterMap_append

theorem actions_trail (h : Apart (actionMark action) (actionMark (ascii "lease.takeover")))
    (records : List Record) : actions action (trail records) = actions action records := by
  unfold actions trail
  rw [List.filterMap_filter]
  refine congrArg (List.filterMap · records) (funext fun r => ?_)
  split
  . rfl
  . next haside =>
    -- What is aside does not begin as the records of the action do.
    rw [eq_comm, Option.eq_none_iff_forall_ne_some]
    intro rest hrest
    obtain ⟨mark, htext, hmark⟩ := List.dropPrefix?_eq_some_iff.mp hrest
    rw [beq_iff_eq] at hmark
    subst hmark
    have hprefix : auditMark <+: r.text := by
      rw [htext, actionMark, List.append_assoc, List.append_assoc]
      exact List.prefix_append _ _
    have htakeover : ¬ actionMark (ascii "lease.takeover") <+: r.text := by
      rw [htext]
      exact Apart.not_prefix_append ⟨h.2, h.1⟩ rest
    rw [← List.isPrefixOf_iff_prefix] at hprefix htakeover
    simp [Record.isAside, hprefix, htakeover] at haside

/-- The record of an action, which has a text behind its mark. -/
theorem actions_singleton {r : Record} {rest : Text} (h : r.text = actionMark action ++ rest) :
    actions action [r] = [rest] := by
  have hdrop : r.text.dropPrefix? (actionMark action) = some rest := by
    rw [h]
    exact List.dropPrefix?_append_of_beq rest (beq_self_eq_true _)
  rw [actions, List.filterMap_cons, hdrop]
  rfl

theorem actions_singleton_of_apart {other : Text} {r : Record} {rest : Text}
    (h : r.text = actionMark other ++ rest)
    (hapart : Apart (actionMark action) (actionMark other)) :
    actions action [r] = [] := by
  have hdrop : r.text.dropPrefix? (actionMark action) = none := by
    rw [Option.eq_none_iff_forall_ne_some]
    intro rest' hrest
    obtain ⟨mark, htext, hmark⟩ := List.dropPrefix?_eq_some_iff.mp hrest
    rw [beq_iff_eq] at hmark
    apply hapart.not_prefix_append rest
    rw [← h, htext, hmark]
    exact List.prefix_append _ _
  rw [actions, List.filterMap_cons, hdrop]
  rfl

variable {α : Type} {record : α → Record} {rest : α → Text}

/-- The records of one action that are made from some items. -/
theorem actions_map (h : ∀ item, (record item).text = actionMark action ++ rest item)
    (items : List α) : actions action (items.map record) = items.map rest := by
  induction items with
  | nil => rfl
  | cons item items ih =>
    change actions action ([record item] ++ items.map record) = _
    rw [actions_append, ih, actions_singleton (h item)]
    rfl

theorem actions_map_of_apart {other : Text}
    (h : ∀ item, (record item).text = actionMark other ++ rest item)
    (hapart : Apart (actionMark action) (actionMark other)) (items : List α) :
    actions action (items.map record) = [] := by
  induction items with
  | nil => rfl
  | cons item items ih =>
    change actions action ([record item] ++ items.map record) = _
    rw [actions_append, ih, actions_singleton_of_apart (h item) hapart]
    rfl

theorem isAside_eq_false {r : Record} {rest : Text} (h : r.text = actionMark action ++ rest)
    (hapart : Apart (actionMark (ascii "lease.takeover")) (actionMark action)) :
    r.isAside = false := by
  have hprefix : auditMark <+: r.text := by
    rw [h, actionMark, List.append_assoc, List.append_assoc]
    exact List.prefix_append _ _
  have htakeover := hapart.not_prefix_append rest
  rw [← h, ← List.isPrefixOf_iff_prefix] at htakeover
  rw [← List.isPrefixOf_iff_prefix] at hprefix
  simp [Record.isAside, hprefix, htakeover]

theorem trail_map (h : ∀ item, (record item).text = actionMark action ++ rest item)
    (hapart : Apart (actionMark (ascii "lease.takeover")) (actionMark action)) (items : List α) :
    trail (items.map record) = items.map record := by
  apply List.filter_eq_self.mpr
  rw [List.forall_mem_map]
  intro item _
  simp [isAside_eq_false (h item) hapart]

end Actions

end SchemaMigration.Log

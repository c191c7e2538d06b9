import SchemaMigration.Proofs.Ledger.Session

/-!
This module contains what becomes of a ledger file while the lease goes from one object to the next:
each operation that writes applies its change to what those before it left.
-/

namespace SchemaMigration.Ledger

theorem Mutation.Writes.inRange {m : Mutation} {old new : State} (h : m.Writes old new)
    (hold : old.InRange) : new.InRange := by
  cases h with
  | record => exact State.withBatch_inRange hold _ _
  | rollBack => exact State.without_inRange hold _
  | remove => exact State.without_inRange hold _

theorem Mutation.Writes.utf8 {m : Mutation} {old new : State} (h : m.Writes old new)
    (hold : old.Utf8) : new.Utf8 := by
  cases h with
  | record _ _ _ hutf8 => exact hutf8
  | rollBack => exact State.without_utf8 hold _
  | remove => exact State.without_utf8 hold _

theorem State.files_withBatch (s : State) (files : List MigrationFile) (appliedAt : Text) :
    (s.withBatch files appliedAt).files = s.files ++ files.map (·.name) := by
  simp [State.withBatch, State.files]

theorem State.files_without_sublist (s : State) (drop : Entry → Bool) :
    List.Sublist (s.without drop).files s.files :=
  List.filter_sublist.map _

theorem State.nodup_withBatch {s : State} {files : List MigrationFile} (hs : s.files.Nodup)
    (hfresh : Fresh id s.files (files.map (·.name))) (appliedAt : Text) :
    (s.withBatch files appliedAt).files.Nodup := by
  rw [State.files_withBatch]
  apply List.nodup_append.mpr
  refine ⟨hs, by simpa using hfresh.distinct, ?_⟩
  rintro name hname _ hnew rfl
  exact hfresh.unseen name hnew hname

theorem Mutation.Writes.nodup {m : Mutation} {old new : State} (h : m.Writes old new)
    (hold : old.files.Nodup) : new.files.Nodup := by
  cases h with
  | record appliedAt _ hfresh => exact State.nodup_withBatch hold hfresh appliedAt
  | rollBack => exact hold.sublist (State.files_without_sublist old _)
  | remove => exact hold.sublist (State.files_without_sublist old _)

namespace Operation.Writes

variable {o : Operation} {old new : State}

theorem inRange (h : o.Writes old new) (hold : old.InRange) : new.InRange := by
  cases h with
  | probe => exact hold
  | mutate h => exact h.inRange hold

theorem utf8 (h : o.Writes old new) (hold : old.Utf8) : new.Utf8 := by
  cases h with
  | probe => exact hold
  | mutate h => exact h.utf8 hold

theorem nodup (h : o.Writes old new) (hold : old.files.Nodup) : new.files.Nodup := by
  cases h with
  | probe => exact hold
  | mutate h => exact h.nodup hold

end Operation.Writes

/-- One time that an object has the lease: for which operation, and what it writes meanwhile. -/
structure Tenure (ι : Type) where
  owner : ι
  operation : Operation
  written? : Option Text
  deriving DecidableEq

variable {ι : Type} {path : Path} {initial? content? : Option Text} {tenures : List (Tenure ι)}

inductive Leaves (path : Path) (initial? : Option Text) : List (Tenure ι) → Option Text → Prop
  | nil : Leaves path initial? [] initial?
  | cons {t : Tenure ι} {ts : List (Tenure ι)} {content? : Option Text}
    (hts : Leaves path initial? ts content?) (ht : Turn path t.operation content? t.written?) :
    Leaves path initial? (t :: ts) (t.written?.or content?)

inductive Serial (start : State) : List (Tenure ι) → State → Prop
  | nil : Serial start [] start
  | idle {t : Tenure ι} {ts : List (Tenure ι)} {s : State} (hts : Serial start ts s)
    (ht : t.written? = none) : Serial start (t :: ts) s
  | wrote {t : Tenure ι} {ts : List (Tenure ι)} {old new : State} (hts : Serial start ts old)
    (hwrites : t.operation.Writes old new) (ht : t.written? = some new.encode) :
    Serial start (t :: ts) new

theorem Serial.nodup {start s : State} (h : Serial start tenures s) (hstart : start.files.Nodup) :
    s.files.Nodup := by
  induction h with
  | nil => exact hstart
  | idle _ _ ih => exact ih
  | wrote _ hwrites _ ih => exact hwrites.nodup ih

/-- A state that can be read from the ledger file is the one that the tenures made. -/
theorem Leaves.serial_of_decodeFile {s : State} (h : Leaves path initial? tenures content?)
    (hdecode : decodeFile path content? = .ok s) :
    ∃ start, decodeFile path initial? = .ok start ∧ Serial start tenures s := by
  induction h generalizing s with
  | nil => exact ⟨s, hdecode, .nil⟩
  | @cons t ts content? hts ht ih =>
    obtain ⟨owner, operation, written?⟩ := t
    cases ht with
    | nothing =>
      obtain ⟨start, hstart, hserial⟩ := ih hdecode
      exact ⟨start, hstart, .idle hserial rfl⟩
    | @state old new hold hwrites =>
      obtain ⟨start, hstart, hserial⟩ := ih hold
      have hrange := hwrites.inRange (inRange_of_decodeFile hold)
      have hutf8 := hwrites.utf8 (utf8_of_decodeFile hold)
      rw [Option.some_or] at hdecode
      obtain rfl := State.eq_of_decode_encode hrange hutf8 (decode_of_decodeFile hdecode)
      exact ⟨start, hstart, .wrote hserial hwrites rfl⟩

/-- Nothing has been written, or the ledger file holds the state that the tenures made. -/
theorem Leaves.serial (h : Leaves path initial? tenures content?) :
    (content? = initial? ∧ ∀ t ∈ tenures, t.written? = none) ∨
      ∃ start s, decodeFile path initial? = .ok start ∧ Serial start tenures s ∧
        content? = some s.encode := by
  induction h with
  | nil => exact .inl ⟨rfl, nofun⟩
  | @cons t ts content? hts ht ih =>
    obtain ⟨owner, operation, written?⟩ := t
    cases ht with
    | nothing =>
      cases ih with
      | inl hnothing =>
        exact .inl ⟨hnothing.1, List.forall_mem_cons.mpr ⟨rfl, hnothing.2⟩⟩
      | inr hwritten =>
        obtain ⟨start, s, hstart, hserial, hcontent⟩ := hwritten
        exact .inr ⟨start, s, hstart, .idle hserial rfl, hcontent⟩
    | @state old new hold hwrites =>
      obtain ⟨start, hstart, hserial⟩ := hts.serial_of_decodeFile hold
      exact .inr ⟨start, new, hstart, .wrote hserial hwrites rfl, rfl⟩

end SchemaMigration.Ledger

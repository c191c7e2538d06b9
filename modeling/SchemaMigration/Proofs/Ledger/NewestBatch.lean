import Mathlib.Data.List.Nodup
import SchemaMigration.Proofs.Ledger.RoundTrip

/-!
This module contains the newest batch of a ledger: which entries belong to it, and what is left of a
ledger without some of its entries.
-/

namespace SchemaMigration.Ledger

theorem valid_of_decodeFile {path : Path} {content? : Option Text} {s : State}
    (h : decodeFile path content? = .ok s) : s.Valid :=
  State.fault?_eq_none_iff_valid.mp (fault?_of_decodeFile h)

namespace State

variable {s : State}

theorem lastBatch_sublist (s : State) : s.lastBatch.Sublist s.entries.reverse := by
  unfold lastBatch
  split
  . exact List.nil_sublist _
  . exact List.filter_sublist

theorem without_congr {drop drop' : Entry → Bool} (h : ∀ e ∈ s.entries, drop e = drop' e) :
    s.without drop = s.without drop' := by
  have hkept : s.entries.filter (!drop ·) = s.entries.filter (!drop' ·) := by
    apply List.filter_congr
    intro e he
    rw [h e he]
  unfold without
  rw [hkept]

theorem without_without (s : State) (drop drop' : Entry → Bool) :
    (s.without drop).without drop' = s.without fun e => drop e || drop' e := by
  simp [without, List.filter_filter, Bool.and_comm]

theorem lastBatch_without {drop : Entry → Bool}
    (hcurrent : (s.without drop).currentBatch = s.currentBatch) :
    (s.without drop).lastBatch = s.lastBatch.filter (!drop ·) := by
  unfold lastBatch
  rw [hcurrent]
  split
  . rfl
  . change (s.entries.filter _).reverse.filter _ = _
    rw [← List.filter_reverse, List.filter_filter, List.filter_filter]
    simp only [Bool.and_comm]

namespace Valid

theorem mem_lastBatch (h : s.Valid) {e : Entry} :
    e ∈ s.lastBatch ↔ e ∈ s.entries ∧ e.batch = s.currentBatch := by
  unfold lastBatch
  split
  . have hnone : e ∈ s.entries → e.batch ≠ s.currentBatch := by
      intro he
      have := h.batches e he
      omega
    simpa using hnone
  . simp

theorem files_lastBatch_nodup (h : s.Valid) : (s.lastBatch.map (·.file)).Nodup := by
  apply (s.lastBatch_sublist.map _).nodup
  rw [List.map_reverse, List.nodup_reverse]
  exact h.distinct

/-- A name of the newest batch is not that of an entry of another batch. -/
theorem mem_files_lastBatch (h : s.Valid) {e : Entry} (he : e ∈ s.entries) :
    e.file ∈ s.lastBatch.map (·.file) ↔ e.batch = s.currentBatch := by
  constructor
  . intro hfile
    obtain ⟨e', he', hsame⟩ := List.mem_map.mp hfile
    obtain ⟨hentry, hbatch⟩ := h.mem_lastBatch.mp he'
    rw [← List.inj_on_of_nodup_map h.distinct hentry he hsame]
    exact hbatch
  . intro hbatch
    exact List.mem_map.mpr ⟨e, h.mem_lastBatch.mpr ⟨he, hbatch⟩, rfl⟩

theorem currentBatch_without (h : s.Valid) {drop : Entry → Bool} {e : Entry} (he : e ∈ s.lastBatch)
    (hkept : drop e = false) : (s.without drop).currentBatch = s.currentBatch := by
  obtain ⟨hentry, hbatch⟩ := h.mem_lastBatch.mp he
  have hpositive := (h.batches e hentry).1
  apply Int.le_antisymm
  . apply newestBatch_le
    . omega
    . exact fun e' he' => (h.batches e' (List.mem_of_mem_filter he')).2
  . rw [← hbatch]
    apply le_newestBatch
    exact List.mem_filter.mpr ⟨hentry, by rw [hkept]; rfl⟩

end Valid

end State

end SchemaMigration.Ledger

import SchemaMigration.Proofs.Ledger.Order

/-!
This module contains that a ledger can be read back from its text if, and only if, it is valid, and
that nothing but valid ledgers can be read from any text.
-/

namespace SchemaMigration.Ledger.State

/--
Complete entries of different migrations, with batches that are counted from one up to the current
batch, which has an entry itself. Without any entries the current batch is zero.
-/
structure Valid (s : State) : Prop where
  complete : ∀ e ∈ s.entries, e.file ≠ [] ∧ e.hash ≠ []
  distinct : s.files.Nodup
  batches : ∀ e ∈ s.entries, 1 ≤ e.batch ∧ e.batch ≤ s.currentBatch
  current : (s.entries = [] ∧ s.currentBatch = 0) ∨ ∃ e ∈ s.entries, e.batch = s.currentBatch

theorem valid_iff {s : State} :
    s.Valid ↔ (∀ e ∈ s.entries, e.file ≠ [] ∧ e.hash ≠ []) ∧ s.files.Nodup ∧
      (∀ e ∈ s.entries, 1 ≤ e.batch ∧ e.batch ≤ s.currentBatch) ∧
      ((s.entries = [] ∧ s.currentBatch = 0) ∨ ∃ e ∈ s.entries, e.batch = s.currentBatch) :=
  ⟨fun h => ⟨h.complete, h.distinct, h.batches, h.current⟩, fun h => ⟨h.1, h.2.1, h.2.2.1, h.2.2.2⟩⟩

instance (s : State) : Decidable s.Valid := decidable_of_iff _ valid_iff.symm

theorem le_newestBatch {entries : List Entry} {e : Entry} (he : e ∈ entries) :
    e.batch ≤ newestBatch entries := by
  induction entries using List.reverseRecOn with
  | nil => cases he
  | append_singleton entries last ih =>
    rw [newestBatch_concat]
    cases List.mem_append.mp he with
    | inl hearlier =>
      have := ih hearlier
      omega
    | inr hlast =>
      rw [List.mem_singleton.mp hlast]
      omega

/-- The newest batch is that of an entry, where the batches of all entries are counted from one. -/
theorem exists_batch_eq_newestBatch {entries : List Entry} (hne : entries ≠ [])
    (hpositive : ∀ e ∈ entries, 1 ≤ e.batch) : ∃ e ∈ entries, e.batch = newestBatch entries := by
  induction entries using List.reverseRecOn with
  | nil => exact absurd rfl hne
  | append_singleton entries last ih =>
    rw [newestBatch_concat]
    by_cases hle : newestBatch entries ≤ last.batch
    . exact ⟨last, List.mem_concat_self, by omega⟩
    . have hearlier : entries ≠ [] := by
        rintro rfl
        have hlast := hpositive last List.mem_concat_self
        change ¬ 0 ≤ last.batch at hle
        omega
      obtain ⟨e, he, hbatch⟩ := ih hearlier fun e he => hpositive e (List.mem_append_left _ he)
      exact ⟨e, List.mem_append_left _ he, by omega⟩

theorem currentBatch_eq_newestBatch_iff {s : State} (h : ∀ e ∈ s.entries, e.Sound s.currentBatch) :
    s.currentBatch = newestBatch s.entries ↔
      (s.entries = [] ∧ s.currentBatch = 0) ∨ ∃ e ∈ s.entries, e.batch = s.currentBatch := by
  constructor
  . intro hcurrent
    cases hentries : s.entries with
    | nil =>
      rw [hentries] at hcurrent
      exact .inl ⟨rfl, hcurrent⟩
    | cons first rest =>
      right
      rw [← hentries, hcurrent]
      apply exists_batch_eq_newestBatch
      . simp [hentries]
      . exact fun e he => (h e he).one_le_batch
  . rintro (⟨hnil, hzero⟩ | ⟨e, he, hbatch⟩)
    . rw [hnil, hzero]
      rfl
    . have hpositive := (h e he).one_le_batch
      have hupper := newestBatch_le (n := s.currentBatch) (by omega)
        fun e' he' => (h e' he').batch_le
      have hlower := le_newestBatch he
      omega

theorem fault?_eq_none_iff_valid {s : State} : s.fault? = none ↔ s.Valid := by
  rw [fault?_eq_none_iff]
  constructor
  . rintro ⟨hdistinct, hsound, hcurrent⟩
    refine ⟨?_, hdistinct, ?_, (currentBatch_eq_newestBatch_iff hsound).mp hcurrent⟩
    . exact fun e he => ⟨(hsound e he).file_ne_nil, (hsound e he).hash_ne_nil⟩
    . exact fun e he => ⟨(hsound e he).one_le_batch, (hsound e he).batch_le⟩
  . intro h
    have hsound : ∀ e ∈ s.entries, e.Sound s.currentBatch := by
      intro e he
      exact ⟨(h.complete e he).1, (h.complete e he).2, (h.batches e he).1, (h.batches e he).2⟩
    exact ⟨h.distinct, hsound, (currentBatch_eq_newestBatch_iff hsound).mpr h.current⟩

/--
A library maps states to documents that have a member for each field, and reads a state from the
document that it maps the state to. Whatever it reads, batches have 32 bits and texts are UTF-8.
-/
structure Format.FollowsMapping (f : Format) : Prop where
  writes : ∀ s : State, s.InRange → s.Utf8 →
    ∃ text, f.write? s = some text ∧ f.document? text = some s.toJson
  reads : ∀ (s : State) (text : Text), s.InRange → s.Utf8 → f.document? text = some s.toJson →
    f.read? text = some s
  typed : ∀ (s : State) (text : Text), f.read? text = some s → s.InRange ∧ s.Utf8

theorem format_followsMapping : format.FollowsMapping where
  writes s _ hutf8 := by
    have hwrites : format.write? s = some s.encode :=
      Json.print?_eq_some_iff.mpr ⟨isUtf8_toJson.mpr hutf8, rfl⟩
    refine ⟨s.encode, hwrites, ?_⟩
    rw [format_document?, parse?_encode hutf8]
    rfl
  reads s text hrange _ hdocument := by
    rw [format_document?] at hdocument
    rw [format_read?, hdocument, Option.bind_some]
    exact ofJson?_toJson hrange
  typed s text hread := by
    rw [format_read?] at hread
    obtain ⟨document, hparse, hread⟩ := Option.bind_eq_some_iff.mp hread
    exact ⟨ofJson?_inRange hread, ofJson?_utf8 (Json.isUtf8_of_parse? hparse).2 hread⟩

variable {f : Format} {s s' : State} {text : Text}

/-- What was written is read back, if it is valid. -/
theorem Format.FollowsMapping.decodeBy_eq_ok_iff (h : f.FollowsMapping) (hrange : s.InRange)
    (hutf8 : s.Utf8) (hdocument : f.document? text = some s.toJson) (s' : State) :
    decodeBy f text = .ok s' ↔ s' = s ∧ s.Valid := by
  rw [State.decodeBy_eq_ok_iff, h.reads s text hrange hutf8 hdocument, hdocument]
  constructor
  . rintro ⟨_, _, _, hread, hfault⟩
    cases hread
    exact ⟨rfl, fault?_eq_none_iff_valid.mp hfault⟩
  . rintro ⟨rfl, hvalid⟩
    exact ⟨_, rfl, shapeFault?_members _, rfl, fault?_eq_none_iff_valid.mpr hvalid⟩

/-- What is read from a text of any origin is a state that can be written. -/
theorem Format.FollowsMapping.of_decodeBy (h : f.FollowsMapping)
    (hdecode : decodeBy f text = .ok s) : s.Valid ∧ s.InRange ∧ s.Utf8 := by
  obtain ⟨_, _, _, hread, hfault⟩ := State.decodeBy_eq_ok_iff.mp hdecode
  exact ⟨fault?_eq_none_iff_valid.mp hfault, h.typed s text hread⟩

/--
Whatever library maps states to documents: the text of a state is a document with a list of all
entries in their order, and the number of the current batch. The state is read back from it if the
state is valid, and otherwise nothing is. What is read from a text of any origin is valid, so that
it can be written and read once more.
-/
theorem decode_encode_eq_ok_iff_valid (f : Format) (h : f.FollowsMapping) :
    (∀ s : State, s.InRange → s.Utf8 → ∃ text, f.write? s = some text ∧
      f.document? text = some (.object [
        (ascii "entries", .array (s.entries.map fun e => .object [
          (ascii "filename", .string e.file), (ascii "hash", .string e.hash),
          (ascii "appliedAt", .string e.appliedAt), (ascii "batch", .number e.batch 0)])),
        (ascii "currentBatch", .number s.currentBatch 0)]) ∧
      (decodeBy f text = .ok s ↔ s.Valid) ∧ ∀ s', decodeBy f text = .ok s' → s' = s) ∧
    ∀ (content : Text) (s : State), decodeBy f content = .ok s →
      s.Valid ∧ s.InRange ∧ s.Utf8 ∧
        ∃ text, f.write? s = some text ∧ decodeBy f text = .ok s := by
  constructor
  . intro s hrange hutf8
    obtain ⟨text, hwrite, hdocument⟩ := h.writes s hrange hutf8
    have hiff := h.decodeBy_eq_ok_iff hrange hutf8 hdocument
    refine ⟨text, hwrite, hdocument, ?_, fun s' hdecode => ((hiff s').mp hdecode).1⟩
    rw [hiff, and_iff_right rfl]
  . intro content s hdecode
    obtain ⟨hvalid, hrange, hutf8⟩ := h.of_decodeBy hdecode
    obtain ⟨text, hwrite, hdocument⟩ := h.writes s hrange hutf8
    refine ⟨hvalid, hrange, hutf8, text, hwrite, ?_⟩
    exact (h.decodeBy_eq_ok_iff hrange hutf8 hdocument s).mpr ⟨rfl, hvalid⟩

/--
Names with a quote, a backslash, a line feed and a letter beyond ASCII, batches that are not in
order, and a text with blanks, another order of the members and other spellings of the numbers.
-/
theorem decode_encode_escaped_names :
    let e : Entry := ⟨ascii "2\"\\\n" ++ [0xC3, 0xA9], ascii "b", ascii "t", 2⟩
    let e' : Entry := ⟨ascii "1", ascii "a", [], 1⟩
    let s : State := ⟨[e, e'], 2⟩
    let content := ascii "\x7b \"currentBatch\" : 2e0, \"entries\" : [" ++
      ascii "\x7b \"hash\": \"b\", \"filename\": \"2\\\"\\\\\\n\\u00e9\", \"batch\": \"2\", " ++
      ascii "\"applied_at\": \"t\" \x7d, " ++
      ascii "\x7b \"filename\": \"1\", \"hash\": \"a\", \"batch\": 1.0 \x7d ] \x7d"
    format.FollowsMapping ∧ s.InRange ∧ s.Utf8 ∧ s.Valid ∧ decode content = .ok s ∧
      (∃ text, format.write? s = some text ∧ text ≠ content ∧ decode text = .ok s) ∧
      ¬ Valid ⟨[e, e'], 3⟩ ∧
      ∃ text, format.write? ⟨[e, e'], 3⟩ = some text ∧ ∀ s', decode text ≠ .ok s' := by
  intro e e' s content
  have hread : decode content = .ok s := by decide +kernel
  have hinvalid : ¬ Valid ⟨[e, e'], 3⟩ := by decide +kernel
  obtain ⟨hwritten, hreread⟩ := decode_encode_eq_ok_iff_valid format format_followsMapping
  obtain ⟨hvalid, hrange, hutf8, text, hwrite, hdecode⟩ := hreread content s hread
  have hother : text ≠ content := by
    rintro rfl
    exact absurd hwrite (by decide +kernel)
  obtain ⟨text', hwrite', _, hiff, honly⟩ := hwritten ⟨[e, e'], 3⟩ ⟨rfl, hrange.entries⟩ hutf8
  refine ⟨format_followsMapping, hrange, hutf8, hvalid, hread, ⟨text, hwrite, hother, hdecode⟩,
    hinvalid, text', hwrite', ?_⟩
  intro s' hdecode'
  have hback : decode text' = .ok ⟨[e, e'], 3⟩ := honly s' hdecode' ▸ hdecode'
  exact hinvalid (hiff.mp hback)

end SchemaMigration.Ledger.State

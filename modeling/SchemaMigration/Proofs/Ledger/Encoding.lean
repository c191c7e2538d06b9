import SchemaMigration.Ledger.Ledger
import SchemaMigration.Proofs.JsonUtf8

/-!
This module contains what is read back from a ledger file, and which migrations are recorded in it.
-/

namespace SchemaMigration.Ledger

def Entry.InRange (e : Entry) : Prop := Json.inRange 32 e.batch = true

structure Entry.Sound (currentBatch : Int) (e : Entry) : Prop where
  file_ne_nil : e.file ≠ []
  hash_ne_nil : e.hash ≠ []
  one_le_batch : 1 ≤ e.batch
  batch_le : e.batch ≤ currentBatch

structure State.InRange (s : State) : Prop where
  currentBatch : Json.inRange 32 s.currentBatch = true
  entries : ∀ e ∈ s.entries, e.InRange

structure Entry.Utf8 (e : Entry) : Prop where
  file : e.file.isUtf8 = true
  hash : e.hash.isUtf8 = true
  appliedAt : e.appliedAt.isUtf8 = true

def State.Utf8 (s : State) : Prop := ∀ e ∈ s.entries, e.Utf8

namespace State

theorem entryOfJson?_entryToJson {e : Entry} (h : e.InRange) :
    entryOfJson? (entryToJson e) = some e := by
  have hfile : ∀ e' : Entry, withEntryMember? e' (ascii "filename", .string e.file) =
      some { e' with file := e.file } := fun _ => rfl
  have hhash : ∀ e' : Entry, withEntryMember? e' (ascii "hash", .string e.hash) =
      some { e' with hash := e.hash } := fun _ => rfl
  have happliedAt : ∀ e' : Entry, withEntryMember? e' (ascii "appliedAt", .string e.appliedAt) =
      some { e' with appliedAt := e.appliedAt } := fun _ => rfl
  have hbatch : ∀ e' : Entry, withEntryMember? e' (ascii "batch", .ofInt e.batch) =
      (Json.toInt? 32 (.ofInt e.batch)).map fun batch => { e' with batch } := fun _ => rfl
  simp only [entryOfJson?, entryToJson, List.foldlM_cons, List.foldlM_nil, hfile, hhash, happliedAt,
    hbatch, Json.toInt?_ofInt, if_pos (show Json.inRange 32 e.batch = true from h),
    Option.bind_eq_bind, Option.bind_some, Option.map_some, Option.pure_def]

theorem mapM_entryOfJson? {entries : List Entry} (h : ∀ e ∈ entries, e.InRange) :
    (entries.map entryToJson).mapM entryOfJson? = some entries := by
  induction entries with
  | nil => rfl
  | cons e entries ih =>
    have he := entryOfJson?_entryToJson (h e List.mem_cons_self)
    have hentries := ih fun e' he' => h e' (List.mem_cons_of_mem e he')
    simp [he, hentries]

def members (s : State) : List (Text × Json) :=
  [(ascii "entries", .array (s.entries.map entryToJson)),
    (ascii "currentBatch", .ofInt s.currentBatch)]

theorem shapeFault?_members (s : State) : shapeFault? s.members = none := rfl

theorem ofJson?_toJson {s : State} (h : s.InRange) : ofJson? s.toJson = some s := by
  have hentries : ∀ s' : State,
      withMember? s' (ascii "entries", .array (s.entries.map entryToJson)) =
        ((s.entries.map entryToJson).mapM entryOfJson?).map fun entries => { s' with entries } :=
    fun _ => rfl
  have hcurrent : ∀ s' : State, withMember? s' (ascii "currentBatch", .ofInt s.currentBatch) =
      (Json.toInt? 32 (.ofInt s.currentBatch)).map fun currentBatch => { s' with currentBatch } :=
    fun _ => rfl
  simp only [toJson, ofJson?, List.foldlM_cons, List.foldlM_nil, hentries, hcurrent,
    mapM_entryOfJson? h.entries, Json.toInt?_ofInt, if_pos h.currentBatch, Option.bind_eq_bind,
    Option.bind_some, Option.map_some, Option.pure_def]

theorem isUtf8_entryToJson {e : Entry} : (entryToJson e).isUtf8 = true ↔ e.Utf8 := by
  have hfields : (entryToJson e).isUtf8 =
      (e.file.isUtf8 && (e.hash.isUtf8 && (e.appliedAt.isUtf8 && true))) := by
    simp only [entryToJson, Json.ofInt, Json.isUtf8, Json.haveUtf8]
    rfl
  rw [hfields]
  simp only [Bool.and_eq_true, and_true]
  constructor
  . rintro ⟨hfile, hhash, happliedAt⟩
    exact ⟨hfile, hhash, happliedAt⟩
  . intro h
    exact ⟨h.file, h.hash, h.appliedAt⟩

theorem isUtf8_toJson {s : State} : s.toJson.isUtf8 = true ↔ s.Utf8 := by
  have hkeys : (ascii "entries").isUtf8 = true ∧ (ascii "currentBatch").isUtf8 = true := by decide
  have hentries (entries : List Entry) :
      Json.areUtf8 (entries.map entryToJson) = true ↔ ∀ e ∈ entries, e.Utf8 := by
    induction entries with
    | nil => simp [Json.areUtf8]
    | cons e entries ih =>
      rw [List.map_cons, Json.areUtf8, Bool.and_eq_true, ih, isUtf8_entryToJson,
        List.forall_mem_cons]
  unfold Utf8
  rw [← hentries]
  simp only [toJson, Json.ofInt, Json.isUtf8, Json.haveUtf8, hkeys, Bool.and_true, Bool.true_and]

theorem parse?_encode {s : State} (h : s.Utf8) : Json.parse? s.encode = some (.object s.members) :=
  Json.parse?_render (isUtf8_toJson.mpr h)

/-- What a state is written as, which is refused if a text is not UTF-8. -/
theorem serialize_eq_ok_iff {s : State} {content : Text} :
    s.serialize = .ok content ↔ s.Utf8 ∧ content = s.encode := by
  unfold serialize format
  dsimp only
  split
  . next hnone =>
    rw [Json.print?, ite_eq_right_iff] at hnone
    refine ⟨nofun, fun ⟨hutf8, _⟩ => ?_⟩
    cases hnone (isUtf8_toJson.mpr hutf8)
  . next content' hsome =>
    obtain ⟨hutf8, rfl⟩ := Json.print?_eq_some_iff.mp hsome
    rw [Except.ok.injEq, eq_comm, and_iff_right (isUtf8_toJson.mp hutf8)]
    rfl

theorem serialize_eq {s : State} (h : s.Utf8) : s.serialize = .ok s.encode :=
  serialize_eq_ok_iff.mpr ⟨h, rfl⟩

theorem inRange_of_toInt? {j : Json} {n : Int} (h : j.toInt? 32 = some n) :
    Json.inRange 32 n = true := by
  unfold Json.toInt? at h
  split at h
  . cases h
    rfl
  . exact (Option.filter_eq_some_iff.mp h).2
  . split at h
    . exact (Option.filter_eq_some_iff.mp h).2
    . cases h
  . cases h

theorem withEntryMember?_inRange {e e' : Entry} {member : Text × Json} (he : e.InRange)
    (h : withEntryMember? e member = some e') : e'.InRange := by
  obtain ⟨key, value⟩ := member
  unfold withEntryMember? at h
  dsimp only at h
  split at h
  . obtain ⟨_, _, rfl⟩ := Option.map_eq_some_iff.mp h
    exact he
  . split at h
    . obtain ⟨_, _, rfl⟩ := Option.map_eq_some_iff.mp h
      exact he
    . split at h
      . obtain ⟨_, _, rfl⟩ := Option.map_eq_some_iff.mp h
        exact he
      . split at h
        . obtain ⟨_, hbatch, rfl⟩ := Option.map_eq_some_iff.mp h
          exact inRange_of_toInt? hbatch
        . cases h

theorem entryOfJson?_inRange {j : Json} {e : Entry} (h : entryOfJson? j = some e) :
    e.InRange := by
  unfold entryOfJson? at h
  split at h
  . have hblank : Entry.InRange ⟨[], [], [], 0⟩ := rfl
    exact foldlM_some (fun _ _ _ _ => withEntryMember?_inRange) hblank h
  . cases h

theorem withMember?_inRange {s s' : State} {member : Text × Json} (hs : s.InRange)
    (h : withMember? s member = some s') : s'.InRange := by
  obtain ⟨key, value⟩ := member
  unfold withMember? at h
  dsimp only at h
  split at h
  . split at h
    . obtain ⟨entries, hentries, rfl⟩ := Option.map_eq_some_iff.mp h
      refine ⟨hs.currentBatch, ?_⟩
      intro e he
      obtain ⟨j, _, hj⟩ := exists_of_mem_forall₂ (forall₂_of_mapM_some hentries) he
      exact entryOfJson?_inRange hj
    . cases h
      exact ⟨hs.currentBatch, fun _ he => by cases he⟩
    . cases h
  . split at h
    . obtain ⟨_, hbatch, rfl⟩ := Option.map_eq_some_iff.mp h
      exact ⟨inRange_of_toInt? hbatch, hs.entries⟩
    . cases h

theorem ofJson?_inRange {j : Json} {s : State} (h : ofJson? j = some s) : s.InRange := by
  unfold ofJson? at h
  split at h
  . have hempty : empty.InRange := ⟨rfl, nofun⟩
    exact foldlM_some (fun _ _ _ _ => withMember?_inRange) hempty h
  . cases h

/-! A state takes its texts from those of the document. -/

theorem isUtf8_of_toText? {j : Json} {t : Text} (hj : j.isUtf8 = true) (h : j.toText? = some t) :
    t.isUtf8 = true := by
  unfold Json.toText? at h
  split at h
  . cases h
    rfl
  . cases h
    rwa [Json.isUtf8] at hj
  . cases h

theorem isUtf8_of_mem {members : List (Text × Json)} (h : Json.haveUtf8 members = true)
    {member : Text × Json} (hmember : member ∈ members) : member.2.isUtf8 = true := by
  induction members with
  | nil => cases hmember
  | cons first members ih =>
    rw [Json.haveUtf8, Bool.and_eq_true, Bool.and_eq_true] at h
    cases hmember with
    | head => exact h.1.2
    | tail _ hmember => exact ih h.2 hmember

theorem isUtf8_of_mem_elements {elements : List Json} (h : Json.areUtf8 elements = true)
    {element : Json} (helement : element ∈ elements) : element.isUtf8 = true := by
  induction elements with
  | nil => cases helement
  | cons first elements ih =>
    rw [Json.areUtf8, Bool.and_eq_true] at h
    cases helement with
    | head => exact h.1
    | tail _ helement => exact ih h.2 helement

theorem withEntryMember?_utf8 {e e' : Entry} {member : Text × Json}
    (hmember : member.2.isUtf8 = true) (he : e.Utf8) (h : withEntryMember? e member = some e') :
    e'.Utf8 := by
  obtain ⟨key, value⟩ := member
  unfold withEntryMember? at h
  dsimp only at h hmember
  split at h
  . obtain ⟨_, htext, rfl⟩ := Option.map_eq_some_iff.mp h
    exact { he with file := isUtf8_of_toText? hmember htext }
  . split at h
    . obtain ⟨_, htext, rfl⟩ := Option.map_eq_some_iff.mp h
      exact { he with hash := isUtf8_of_toText? hmember htext }
    . split at h
      . obtain ⟨_, htext, rfl⟩ := Option.map_eq_some_iff.mp h
        exact { he with appliedAt := isUtf8_of_toText? hmember htext }
      . split at h
        . obtain ⟨_, _, rfl⟩ := Option.map_eq_some_iff.mp h
          exact ⟨he.file, he.hash, he.appliedAt⟩
        . cases h

theorem entryOfJson?_utf8 {j : Json} {e : Entry} (hj : j.isUtf8 = true)
    (h : entryOfJson? j = some e) : e.Utf8 := by
  unfold entryOfJson? at h
  split at h
  . next members =>
    rw [Json.isUtf8] at hj
    have hblank : Entry.Utf8 ⟨[], [], [], 0⟩ := ⟨rfl, rfl, rfl⟩
    exact foldlM_some (fun _ _ hmember _ => withEntryMember?_utf8 (isUtf8_of_mem hj hmember)) hblank
      h
  . cases h

theorem withMember?_utf8 {s s' : State} {member : Text × Json} (hmember : member.2.isUtf8 = true)
    (hs : s.Utf8) (h : withMember? s member = some s') : s'.Utf8 := by
  obtain ⟨key, value⟩ := member
  unfold withMember? at h
  dsimp only at h hmember
  split at h
  . split at h
    . obtain ⟨entries, hentries, rfl⟩ := Option.map_eq_some_iff.mp h
      intro e he
      obtain ⟨j, hj, hentry⟩ := exists_of_mem_forall₂ (forall₂_of_mapM_some hentries) he
      rw [Json.isUtf8] at hmember
      exact entryOfJson?_utf8 (isUtf8_of_mem_elements hmember hj) hentry
    . cases h
      exact nofun
    . cases h
  . split at h
    . obtain ⟨_, _, rfl⟩ := Option.map_eq_some_iff.mp h
      exact hs
    . cases h

theorem ofJson?_utf8 {j : Json} {s : State} (hj : j.isUtf8 = true) (h : ofJson? j = some s) :
    s.Utf8 := by
  unfold ofJson? at h
  split at h
  . rw [Json.isUtf8] at hj
    have hempty : empty.Utf8 := nofun
    exact foldlM_some (fun _ _ hmember _ => withMember?_utf8 (isUtf8_of_mem hj hmember)) hempty h
  . cases h

theorem decodeBy_eq_ok_iff {f : Format} {content : Text} {s : State} :
    decodeBy f content = .ok s ↔
      ∃ members, f.document? content = some (.object members) ∧ shapeFault? members = none ∧
        f.read? content = some s ∧ s.fault? = none := by
  unfold decodeBy
  constructor
  . intro h
    split at h
    . cases h
    . next members hdocument =>
      split at h
      . cases h
      . next hshape =>
        split at h
        . cases h
        . next s' hread =>
          split at h
          . cases h
          . next hfault =>
            cases h
            exact ⟨members, hdocument, hshape, hread, hfault⟩
    . cases h
  . rintro ⟨members, hdocument, hshape, hread, hfault⟩
    rw [hdocument]
    dsimp only
    rw [hshape]
    dsimp only
    rw [hread]
    dsimp only
    rw [hfault]

theorem format_document? (content : Text) : format.document? content = Json.parse? content := rfl

theorem format_read? (content : Text) :
    format.read? content = (Json.parse? content).bind ofJson? := rfl

theorem decode_eq_ok {content : Text} {s : State} (h : decode content = .ok s) :
    ∃ members, Json.parse? content = some (.object members) ∧ shapeFault? members = none ∧
      ofJson? (.object members) = some s ∧ s.fault? = none := by
  obtain ⟨members, hparse, hshape, hread, hfault⟩ := decodeBy_eq_ok_iff.mp h
  rw [format_document?] at hparse
  rw [format_read?, hparse, Option.bind_some] at hread
  exact ⟨members, hparse, hshape, hread, hfault⟩

theorem read?_encode {s : State} (h : s.InRange) (hutf8 : s.Utf8) :
    format.read? s.encode = some s := by
  rw [format_read?, parse?_encode hutf8, Option.bind_some]
  exact ofJson?_toJson h

theorem eq_of_decode_encode {s s' : State} (h : s.InRange) (hutf8 : s.Utf8)
    (hdecode : decode s.encode = .ok s') : s' = s := by
  obtain ⟨_, _, _, hread, _⟩ := decodeBy_eq_ok_iff.mp hdecode
  rw [read?_encode h hutf8] at hread
  exact (Option.some.inj hread).symm

theorem decode_encode {s : State} (h : s.InRange) (hutf8 : s.Utf8) (hfault : s.fault? = none) :
    decode s.encode = .ok s := by
  unfold decode
  rw [decodeBy_eq_ok_iff, format_document?]
  exact ⟨s.members, parse?_encode hutf8, s.shapeFault?_members, read?_encode h hutf8, hfault⟩

theorem decode_encode_of_fault {s : State} (h : s.InRange) (hutf8 : s.Utf8) {fault : Corruption}
    (hfault : s.fault? = some fault) : decode s.encode = .error fault := by
  unfold decode decodeBy
  rw [format_document?, parse?_encode hutf8]
  dsimp only
  rw [shapeFault?_members]
  dsimp only
  rw [read?_encode h hutf8]
  dsimp only
  rw [hfault]

theorem entryFault?_eq_none_iff {currentBatch : Int} {seen : List Text} {e : Entry} :
    entryFault? currentBatch seen e = none ↔ e.file ∉ seen ∧ e.Sound currentBatch := by
  unfold entryFault?
  constructor
  . intro h
    split at h
    . cases h
    . next hempty =>
      rw [Bool.or_eq_true, List.isEmpty_iff, List.isEmpty_iff, not_or] at hempty
      split at h
      . cases h
      . next hseen =>
        split at h
        . cases h
        . next houtside =>
          rw [Bool.or_eq_true, decide_eq_true_eq, decide_eq_true_eq] at houtside
          exact ⟨by simpa using hseen, hempty.1, hempty.2, by omega, by omega⟩
  . rintro ⟨hseen, hfile, hhash, hpositive, hcurrent⟩
    rw [if_neg, if_neg, if_neg]
    . rw [Bool.or_eq_true, decide_eq_true_eq, decide_eq_true_eq]
      omega
    . simpa using hseen
    . simp [hfile, hhash]

theorem entriesFault?_eq_none_iff {currentBatch : Int} {seen : List Text} {entries : List Entry} :
    entriesFault? currentBatch seen entries = none ↔
      Fresh (·.file) seen entries ∧ ∀ e ∈ entries, e.Sound currentBatch := by
  induction entries generalizing seen with
  | nil => exact ⟨fun _ => ⟨fresh_nil, nofun⟩, fun _ => rfl⟩
  | cons e entries ih =>
    rw [fresh_cons, List.forall_mem_cons, and_and_and_comm, ← entryFault?_eq_none_iff, ← ih]
    simp only [entriesFault?]
    split
    . next hfault => simp [hfault]
    . next hfault => simp [hfault]

theorem fault?_eq_none_iff {s : State} :
    s.fault? = none ↔ s.files.Nodup ∧ (∀ e ∈ s.entries, e.Sound s.currentBatch) ∧
      s.currentBatch = newestBatch s.entries := by
  have hfresh : Fresh (·.file) [] s.entries ↔ s.files.Nodup := ⟨(·.distinct), fresh_of_nodup⟩
  rw [← and_assoc, ← hfresh, ← entriesFault?_eq_none_iff]
  unfold fault?
  split
  . next hfault => simp [hfault]
  . next hfault => simp [hfault]

theorem inRange_max {m n : Int} (hm : Json.inRange 32 m = true) (hn : Json.inRange 32 n = true) :
    Json.inRange 32 (max m n) = true := by
  rw [Int.max_def]
  split
  . exact hn
  . exact hm

theorem newestBatch_inRange {entries : List Entry} (h : ∀ e ∈ entries, e.InRange) :
    Json.inRange 32 (newestBatch entries) = true := by
  have hfold : ∀ n : Int, Json.inRange 32 n = true →
      Json.inRange 32 (entries.foldl (fun n e => max n e.batch) n) = true := by
    induction entries with
    | nil =>
      intro n hn
      exact hn
    | cons e entries ih =>
      intro n hn
      exact ih (fun e' he' => h e' (List.mem_cons_of_mem e he')) _
        (inRange_max hn (h e List.mem_cons_self))
  exact hfold 0 rfl

theorem without_inRange {s : State} (h : s.InRange) (drop : Entry → Bool) :
    (s.without drop).InRange := by
  have hkept : ∀ e ∈ s.entries.filter (!drop ·), e.InRange :=
    fun e he => h.entries e (List.mem_of_mem_filter he)
  exact ⟨newestBatch_inRange hkept, hkept⟩

theorem signed32_eq (n : Int) : signed32 n =
    if n % 4294967296 < 2147483648 then n % 4294967296 else n % 4294967296 - 4294967296 :=
  Int.bmod_def n (1 <<< 32)

theorem inRange_signed32 (n : Int) : Json.inRange 32 (signed32 n) = true := by
  rw [signed32_eq]
  simp only [Json.inRange, Bool.and_eq_true, decide_eq_true_eq]
  omega

theorem without_utf8 {s : State} (h : s.Utf8) (drop : Entry → Bool) : (s.without drop).Utf8 :=
  fun e he => h e (List.mem_of_mem_filter he)

theorem withBatch_inRange {s : State} (h : s.InRange) (files : List MigrationFile)
    (appliedAt : Text) : (s.withBatch files appliedAt).InRange := by
  refine ⟨inRange_signed32 _, ?_⟩
  intro e he
  cases List.mem_append.mp he with
  | inl he => exact h.entries e he
  | inr he =>
    obtain ⟨f, _, rfl⟩ := List.mem_map.mp he
    exact inRange_signed32 _

end State

def stated? (content? : Option Text) : Option State :=
  match content?.bind Json.parse? with
  | some (.object members) =>
    if (State.shapeFault? members).isNone then State.ofJson? (.object members) else none
  | _ => none

def recorded (content? : Option Text) : List Text :=
  match stated? content? with
  | some s => s.files
  | none => []

def entries (content? : Option Text) : List Entry :=
  match stated? content? with
  | some s => s.entries
  | none => []

theorem recorded_eq (content? : Option Text) :
    recorded content? = (entries content?).map (·.file) := by
  unfold recorded entries
  split
  . rfl
  . rfl

theorem stated?_of_decode {content : Text} {s : State} (h : State.decode content = .ok s) :
    stated? (some content) = some s := by
  obtain ⟨members, hparse, hshape, hread, _⟩ := State.decode_eq_ok h
  unfold stated?
  rw [Option.bind_some, hparse]
  dsimp only
  rw [hshape]
  exact hread

theorem entries_encode {s : State} (h : s.InRange) (hutf8 : s.Utf8) :
    entries (some s.encode) = s.entries := by
  have hstated : stated? (some s.encode) = some s := by
    unfold stated?
    rw [Option.bind_some, State.parse?_encode hutf8]
    exact State.ofJson?_toJson h
  unfold entries
  rw [hstated]

theorem decodeFile_some (path : Path) (content : Text) :
    decodeFile path (some content) = (State.decode content).mapError (.corrupted path) := rfl

theorem decode_of_decodeFile {path : Path} {content : Text} {s : State}
    (h : decodeFile path (some content) = .ok s) : State.decode content = .ok s :=
  mapError_eq_ok.mp h

theorem decodeFile_of_decode {path : Path} {content : Text} {s : State}
    (h : State.decode content = .ok s) : decodeFile path (some content) = .ok s := by
  rw [decodeFile_some, h]
  rfl

theorem decodeFile_encode {path : Path} {s : State} (h : s.InRange) (hutf8 : s.Utf8)
    (hfault : s.fault? = none) : decodeFile path (some s.encode) = .ok s :=
  decodeFile_of_decode (State.decode_encode h hutf8 hfault)

theorem decodeFile_encode_of_fault {path : Path} {s : State} (h : s.InRange) (hutf8 : s.Utf8)
    {fault : Corruption} (hfault : s.fault? = some fault) :
    decodeFile path (some s.encode) = .error (.corrupted path fault) := by
  rw [decodeFile_some, State.decode_encode_of_fault h hutf8 hfault]
  rfl

theorem inRange_of_decodeFile {path : Path} {content? : Option Text} {s : State}
    (h : decodeFile path content? = .ok s) : s.InRange := by
  cases content? with
  | none =>
    cases h
    exact ⟨rfl, nofun⟩
  | some content =>
    obtain ⟨members, _, _, hs, _⟩ := State.decode_eq_ok (decode_of_decodeFile h)
    exact State.ofJson?_inRange hs

theorem utf8_of_decodeFile {path : Path} {content? : Option Text} {s : State}
    (h : decodeFile path content? = .ok s) : s.Utf8 := by
  cases content? with
  | none =>
    cases h
    exact nofun
  | some content =>
    obtain ⟨members, hparse, _, hs, _⟩ := State.decode_eq_ok (decode_of_decodeFile h)
    exact State.ofJson?_utf8 (Json.isUtf8_of_parse? hparse).2 hs

theorem entries_of_decodeFile {path : Path} {content? : Option Text} {s : State}
    (h : decodeFile path content? = .ok s) : entries content? = s.entries := by
  cases content? with
  | none =>
    cases h
    rfl
  | some content =>
    unfold entries
    rw [stated?_of_decode (decode_of_decodeFile h)]

theorem fault?_of_decodeFile {path : Path} {content? : Option Text} {s : State}
    (h : decodeFile path content? = .ok s) : s.fault? = none := by
  cases content? with
  | none =>
    cases h
    rfl
  | some content =>
    obtain ⟨_, _, _, _, hfault⟩ := State.decode_eq_ok (decode_of_decodeFile h)
    exact hfault

theorem nodup_of_decodeFile {path : Path} {content? : Option Text} {s : State}
    (h : decodeFile path content? = .ok s) : s.files.Nodup :=
  (State.fault?_eq_none_iff.mp (fault?_of_decodeFile h)).1

end SchemaMigration.Ledger

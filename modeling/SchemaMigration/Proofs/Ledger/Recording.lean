import SchemaMigration.Proofs.Ledger.NewestBatch

/-!
This module contains what a mutation that succeeds has made of a ledger, and in particular the
number of a batch that was recorded. Behind the batch with the largest number one more batch is
recorded under a number that no ledger may have, and from then on the ledger file cannot be read.
-/

namespace SchemaMigration.Ledger

open Program (Exec)

namespace State

variable {s : State} {files : List MigrationFile}

theorem Valid.zero_le_currentBatch (h : s.Valid) : 0 ≤ s.currentBatch := by
  obtain ⟨_, hzero⟩ | ⟨e, he, hbatch⟩ := h.current
  . omega
  . have := h.batches e he
    omega

theorem Valid.withBatch (h : s.Valid) (hbelow : s.currentBatch < maxBatch) (hne : files ≠ [])
    (hnamed : ∀ f ∈ files, f.name ≠ []) (hfresh : Fresh id s.files (files.map (·.name)))
    (appliedAt : Text) : (s.withBatch files appliedAt).Valid := by
  have hnodup := nodup_withBatch h.distinct hfresh appliedAt
  have hzero := h.zero_le_currentBatch
  rw [withBatch_eq hzero hbelow] at hnodup ⊢
  constructor
  . rw [List.forall_mem_append, List.forall_mem_map]
    exact ⟨h.complete, fun f hf => ⟨hnamed f hf, contentHash_ne_nil f.content⟩⟩
  . exact hnodup
  . rw [List.forall_mem_append, List.forall_mem_map]
    refine ⟨fun e he => ?_, fun _ _ => ?_⟩
    . have := h.batches e he
      dsimp only
      omega
    . dsimp only
      omega
  . obtain ⟨f, hf⟩ := List.exists_mem_of_ne_nil files hne
    exact .inr ⟨_, List.mem_append_right _ (List.mem_map_of_mem hf), rfl⟩

theorem InRange.currentBatch_le (h : s.InRange) : s.currentBatch ≤ maxBatch := by
  have hrange := h.currentBatch
  simp only [Json.inRange, Bool.and_eq_true, decide_eq_true_eq] at hrange
  unfold maxBatch
  omega

/-- The next number is the smallest one there is, so that already the first entry is beyond it. -/
theorem Valid.fault?_withBatch (h : s.Valid) (hlast : s.currentBatch = maxBatch)
    (files : List MigrationFile) (appliedAt : Text) :
    ∃ e, s.entries.head? = some e ∧ (s.withBatch files appliedAt).fault? =
      some (.batchOutside e.file e.batch (-maxBatch - 1)) := by
  have hnumber : signed32 (s.currentBatch + 1) = -maxBatch - 1 := by
    rw [hlast]
    decide
  cases hentries : s.entries with
  | nil =>
    obtain ⟨_, hzero⟩ | ⟨e, he, _⟩ := h.current
    . rw [hlast] at hzero
      cases hzero
    . rw [hentries] at he
      cases he
  | cons e rest =>
    have he : e ∈ s.entries := hentries ▸ List.mem_cons_self
    obtain ⟨hfile, hhash⟩ := h.complete e he
    have hbeyond : -maxBatch - 1 < e.batch := by
      have := (h.batches e he).1
      unfold maxBatch
      omega
    have hfirst : entryFault? (-maxBatch - 1) [] e =
        some (.batchOutside e.file e.batch (-maxBatch - 1)) := by
      simp [entryFault?, hfile, hhash, hbeyond]
    have hfault : entriesFault? (s.withBatch files appliedAt).currentBatch []
        (s.withBatch files appliedAt).entries =
          some (.batchOutside e.file e.batch (-maxBatch - 1)) := by
      unfold State.withBatch
      dsimp only
      rw [hnumber, hentries, List.cons_append, entriesFault?, hfirst]
    refine ⟨e, rfl, ?_⟩
    unfold fault?
    rw [hfault]

end State

theorem decodeFile_withBatch {path : Path} {content? : Option Text} {s : State}
    {files : List MigrationFile} (hdecode : decodeFile path content? = .ok s)
    (hbelow : s.currentBatch < State.maxBatch) (hne : files ≠ [])
    (hnamed : ∀ f ∈ files, f.name ≠ []) (hfresh : Fresh id s.files (files.map (·.name)))
    {appliedAt : Text} (hutf8 : (s.withBatch files appliedAt).Utf8) :
    decodeFile path (some (s.withBatch files appliedAt).encode) =
      .ok (s.withBatch files appliedAt) := by
  have hvalid := (valid_of_decodeFile hdecode).withBatch hbelow hne hnamed hfresh appliedAt
  have hrange := State.withBatch_inRange (inRange_of_decodeFile hdecode) files appliedAt
  apply decodeFile_encode hrange hutf8
  exact State.fault?_eq_none_iff_valid.mpr hvalid

inductive Mutation.Performs (m : Mutation) (l : Ledger) (content? : Option Text) (old : State) :
    Ledger → Option Text → Prop
  | skipped (hm : m = .remove []) : Performs m l content? old l content?
  | empty (hm : m = .rollBack) (hbatch : old.currentBatch = 0) :
    Performs m l content? old { l with state := old } content?
  | wrote {new : State} (hwrites : m.Writes old new) :
    Performs m l content? old { l with state := new } (some new.encode)

section Exec

variable {l l' : Ledger} {options : Lease.Options} {world world' : Files} {old : State}

theorem Session.Ends.performs {path : Path} {m : Mutation} {faults : Failure → Prop}
    {session : Session} {start? content?' : Option Text}
    (h : Session.Ends path (.mutate m) faults l (.ok l') session)
    (hsees : session.Sees start? content?') (hdecode : decodeFile path start? = .ok old) :
    m.Performs l start? old l' content?' := by
  cases h with
  | skipped ho =>
    cases hsees
    cases ho
    exact .skipped rfl
  | probed ho => cases ho
  | read hreads hread =>
    obtain ⟨rfl, rfl⟩ := hsees
    cases hread.symm.trans hdecode
    cases hreads with
    | rollBack hbatch => exact .empty rfl hbatch
  | wrote ho hread hwrites =>
    obtain ⟨rfl, rfl⟩ := hsees
    cases ho
    cases hread.symm.trans hdecode
    exact .wrote hwrites

theorem record_of_exec {files : List MigrationFile}
    (hdecode : decodeFile l.path (world l.path) = .ok old)
    (hexec : Exec (World.server (File.Owns l.path)) (onDisk l.path options (l.record files)) world
      (.ok l') world') :
    files ≠ [] ∧ Fresh id old.files (files.map (·.name)) ∧
      ∃ appliedAt, (old.withBatch files appliedAt).Utf8 ∧
        l' = ⟨l.path, old.withBatch files appliedAt⟩ ∧
          world' l.path = some (old.withBatch files appliedAt).encode := by
  obtain ⟨session, hsees, hends⟩ := ends_of_exec (o := .mutate (.record files)) hexec
  have hperforms := hends.performs hsees hdecode
  generalize world' l.path = content?' at hperforms ⊢
  cases hperforms with
  | skipped hm => cases hm
  | empty hm => cases hm
  | wrote hwrites =>
    cases hwrites with
    | record appliedAt hne hfresh hutf8 => exact ⟨hne, hfresh, appliedAt, hutf8, rfl, rfl⟩

/--
Recording a batch leaves a ledger file that can be read if, and only if, there is a number behind
that of the newest batch. The entries of the new batch then have this number, which is greater than
all that there were. Otherwise no state at all can be read any more.
-/
theorem readable_of_recorded_iff {files : List MigrationFile}
    (hdecode : decodeFile l.path (world l.path) = .ok old) (hnamed : ∀ f ∈ files, f.name ≠ [])
    (hexec : Exec (World.server (File.Owns l.path)) (onDisk l.path options (l.record files)) world
      (.ok l') world') :
    (decodeFile l.path (world' l.path) = .ok l'.state ↔ old.currentBatch < State.maxBatch) ∧
    (old.currentBatch < State.maxBatch → ∃ appliedAt,
      l'.state = ⟨old.entries ++
        files.map fun f => ⟨f.name, f.hash, appliedAt, old.currentBatch + 1⟩,
        old.currentBatch + 1⟩ ∧ ∀ e ∈ old.entries, e.batch < old.currentBatch + 1) ∧
    (¬ old.currentBatch < State.maxBatch → ∃ e, old.entries.head? = some e ∧
      decodeFile l.path (world' l.path) =
        .error (.corrupted l.path (.batchOutside e.file e.batch (-State.maxBatch - 1)))) := by
  obtain ⟨hne, hfresh, appliedAt, hutf8, rfl, hfile⟩ := record_of_exec hdecode hexec
  have hvalid := valid_of_decodeFile hdecode
  have hrange := inRange_of_decodeFile hdecode
  have hzero := hvalid.zero_le_currentBatch
  have hunreadable : ¬ old.currentBatch < State.maxBatch → ∃ e, old.entries.head? = some e ∧
      decodeFile l.path (world' l.path) =
        .error (.corrupted l.path (.batchOutside e.file e.batch (-State.maxBatch - 1))) := by
    intro hlast
    have hle := hrange.currentBatch_le
    obtain ⟨e, hhead, hfault⟩ := hvalid.fault?_withBatch (by omega) files appliedAt
    refine ⟨e, hhead, ?_⟩
    rw [hfile]
    exact decodeFile_encode_of_fault (State.withBatch_inRange hrange files appliedAt) hutf8 hfault
  refine ⟨⟨?_, ?_⟩, ?_, hunreadable⟩
  . intro hread
    by_contra hlast
    obtain ⟨e, _, herror⟩ := hunreadable hlast
    rw [hread] at herror
    cases herror
  . intro hbelow
    rw [hfile]
    exact decodeFile_withBatch hdecode hbelow hne hnamed hfresh hutf8
  . intro hbelow
    refine ⟨appliedAt, State.withBatch_eq hzero hbelow files appliedAt, ?_⟩
    intro e he
    have := (hvalid.batches e he).2
    omega

end Exec

def State.single (number : Int) : State :=
  ⟨[⟨ascii "a.sigl", ascii "x", ascii "t", number⟩], number⟩

/-- The last batch number is given to a batch, and the ledger file can be read behind it. -/
theorem readable_behind_last_number :
    let l : Ledger := .new (ascii "ledger.json")
    let files : List MigrationFile := [⟨ascii "b.sigl", ascii "y"⟩]
    let world := Files.set (fun _ => none) l.path (some (State.single 2147483646).encode)
    ∃ (l' : Ledger) (world' : Files),
      Exec (World.server (File.Owns l.path)) (onDisk l.path ⟨0, 0⟩ (l.record files)) world (.ok l')
        world' ∧
      decodeFile l.path (world' l.path) = .ok l'.state ∧
      l'.state.currentBatch = State.maxBatch ∧
      l'.state.files = [ascii "a.sigl", ascii "b.sigl"] := by
  intro l files world
  have hold : decodeFile l.path (world l.path) = .ok (.single 2147483646) := by
    dsimp only [world]
    rw [Files.set_same]
    exact decodeFile_of_decode (by decide +kernel)
  obtain ⟨l', hexec⟩ := World.exists_exec_obliging [] (onDisk l.path ⟨0, 0⟩ (l.record files)) world
    (by decide +kernel) (File.Owns l.path)
  obtain ⟨hreadable, hnumber, _⟩ := readable_of_recorded_iff hold (by decide) hexec
  obtain ⟨appliedAt, hstate, _⟩ := hnumber (by decide)
  refine ⟨l', _, hexec, hreadable.mpr (by decide), ?_, ?_⟩
  . rw [hstate]
    rfl
  . rw [hstate]
    rfl

/-- One more batch gets the least number of all, and its file cannot be read. -/
theorem unreadable_behind_number_overflow :
    let l : Ledger := .new (ascii "ledger.json")
    let files : List MigrationFile := [⟨ascii "b.sigl", ascii "y"⟩]
    let old := State.single 2147483647
    let world := Files.set (fun _ => none) l.path (some old.encode)
    ∃ (l' : Ledger) (world' : Files),
      decodeFile l.path (world l.path) = .ok old ∧
      Exec (World.server (File.Owns l.path)) (onDisk l.path ⟨0, 0⟩ (l.record files)) world (.ok l')
        world' ∧
      (∀ s, decodeFile l.path (world' l.path) ≠ .ok s) ∧
      l'.state.currentBatch < 0 := by
  intro l files old world
  have hold : decodeFile l.path (world l.path) = .ok old := by
    dsimp only [world]
    rw [Files.set_same]
    exact decodeFile_of_decode (by decide +kernel)
  obtain ⟨l', hexec⟩ := World.exists_exec_obliging [] (onDisk l.path ⟨0, 0⟩ (l.record files)) world
    (by decide +kernel) (File.Owns l.path)
  obtain ⟨_, _, appliedAt, hutf8, rfl, hfile⟩ := record_of_exec hold hexec
  refine ⟨_, _, hold, hexec, ?_, ?_⟩
  . intro s hread
    obtain ⟨e, _, hfault⟩ := (valid_of_decodeFile hold).fault?_withBatch rfl files appliedAt
    rw [hfile, decodeFile_encode_of_fault
      (State.withBatch_inRange (inRange_of_decodeFile hold) files appliedAt) hutf8 hfault] at hread
    cases hread
  . change signed32 (2147483647 + 1) < 0
    decide

end SchemaMigration.Ledger

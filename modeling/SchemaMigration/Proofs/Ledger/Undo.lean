import Mathlib.Data.Finset.Card
import SchemaMigration.Proofs.Ledger.Recording

/-!
This module contains that rolling back undoes recording. The newest batch can be removed as a batch
or by the names of its migrations, and both lead to the same ledger: behind a batch that was
recorded, to the ledger before. Rolled back again and again, a ledger loses one batch each time
until it is empty.
-/

namespace SchemaMigration.Ledger

open Program (Ensures Exec)

namespace State

variable {s : State} {files : List MigrationFile}

def batches (s : State) : Finset Int := (s.entries.map (·.batch)).toFinset

def undone (s : State) : State := s.without (·.batch == s.currentBatch)

namespace Valid

theorem currentBatch_eq (h : s.Valid) : s.currentBatch = newestBatch s.entries :=
  (fault?_eq_none_iff.mp (fault?_eq_none_iff_valid.mpr h)).2.2

theorem without (h : s.Valid) (drop : Entry → Bool) : (s.without drop).Valid := by
  have hkept : ∀ e ∈ (s.without drop).entries, e ∈ s.entries :=
    fun e he => List.mem_of_mem_filter he
  constructor
  . exact fun e he => h.complete e (hkept e he)
  . exact h.distinct.sublist (files_without_sublist s drop)
  . exact fun e he => ⟨(h.batches e (hkept e he)).1, le_newestBatch he⟩
  . by_cases hempty : (s.without drop).entries = []
    . exact .inl ⟨hempty, congrArg newestBatch hempty⟩
    . right
      apply exists_batch_eq_newestBatch hempty
      exact fun e he => (h.batches e (hkept e he)).1

theorem without_eq_self (h : s.Valid) {drop : Entry → Bool}
    (hnone : ∀ e ∈ s.entries, drop e = false) : s.without drop = s := by
  have hkept : s.entries.filter (!drop ·) = s.entries := by
    apply List.filter_eq_self.mpr
    intro e he
    rw [hnone e he]
    rfl
  unfold State.without
  dsimp only
  rw [hkept, ← h.currentBatch_eq]

theorem entries_eq_nil_iff (h : s.Valid) : s.entries = [] ↔ s.currentBatch = 0 := by
  constructor
  . intro hempty
    rw [h.currentBatch_eq, hempty]
    rfl
  . intro hzero
    apply List.eq_nil_iff_forall_not_mem.mpr
    intro e he
    have := h.batches e he
    omega

theorem undone_eq_self (h : s.Valid) (hzero : s.currentBatch = 0) : s.undone = s := by
  apply h.without_eq_self
  rw [h.entries_eq_nil_iff.mpr hzero]
  exact nofun

/-- The newest batch consists of the entries of its migrations. -/
theorem without_files_lastBatch (h : s.Valid) :
    s.without ((s.lastBatch.map (·.file)).contains ·.file) = s.undone := by
  apply without_congr
  intro e he
  rw [Bool.eq_iff_iff, List.contains_iff_mem, h.mem_files_lastBatch he, beq_iff_eq]

/-- What is behind the newest batch that was there is the batch that was recorded. -/
theorem lastBatch_withBatch (h : s.Valid) (hbelow : s.currentBatch < maxBatch) (appliedAt : Text) :
    (s.withBatch files appliedAt).lastBatch =
      (files.map fun f => ⟨f.name, f.hash, appliedAt, s.currentBatch + 1⟩).reverse := by
  have hzero := h.zero_le_currentBatch
  have hold : s.entries.filter (·.batch == s.currentBatch + 1) = [] := by
    apply List.filter_eq_nil_iff.mpr
    intro e he
    have := (h.batches e he).2
    rw [beq_iff_eq]
    omega
  rw [withBatch_eq hzero hbelow, lastBatch, if_neg (by dsimp only; omega), List.filter_reverse,
    List.filter_append, hold, List.nil_append, List.filter_map]
  simp [Function.comp_def]

theorem undone_withBatch (h : s.Valid) (hbelow : s.currentBatch < maxBatch) (appliedAt : Text) :
    (s.withBatch files appliedAt).undone = s := by
  have hold : s.entries.filter (!·.batch == s.currentBatch + 1) = s.entries := by
    apply List.filter_eq_self.mpr
    intro e he
    have := (h.batches e he).2
    rw [Bool.not_eq_true', beq_eq_false_iff_ne]
    omega
  rw [withBatch_eq h.zero_le_currentBatch hbelow, undone, State.without]
  dsimp only
  rw [List.filter_append, hold, List.filter_map]
  simp [Function.comp_def, ← h.currentBatch_eq]

theorem files_undone_perm (h : s.Valid) :
    ((s.lastBatch.map (·.file)).reverse ++ s.undone.files).Perm s.files := by
  have hnewest : (s.lastBatch.map (·.file)).reverse =
      (s.entries.filter (·.batch == s.currentBatch)).map (·.file) := by
    unfold lastBatch
    split
    . next hzero =>
      rw [h.entries_eq_nil_iff.mpr hzero]
      rfl
    . rw [List.filter_reverse, List.map_reverse, List.reverse_reverse]
  rw [hnewest]
  unfold State.files undone State.without
  rw [← List.map_append]
  exact (List.filter_append_perm _ s.entries).map _

end Valid

theorem mem_batches {n : Int} : n ∈ s.batches ↔ ∃ e ∈ s.entries, e.batch = n := by
  simp [batches]

theorem batches_undone (s : State) : s.undone.batches = s.batches.erase s.currentBatch := by
  ext n
  rw [Finset.mem_erase, mem_batches, mem_batches]
  simp only [undone, without, List.mem_filter, Bool.not_eq_true', beq_eq_false_iff_ne]
  constructor
  . rintro ⟨e, ⟨he, hother⟩, rfl⟩
    exact ⟨hother, e, he, rfl⟩
  . rintro ⟨hother, e, he, rfl⟩
    exact ⟨e, ⟨he, hother⟩, rfl⟩

theorem card_batches_eq_zero_iff : s.batches.card = 0 ↔ s.entries = [] := by
  simp [batches]

theorem Valid.eq_empty_iff (h : s.Valid) : s = .empty ↔ s.batches.card = 0 := by
  rw [card_batches_eq_zero_iff]
  constructor
  . rintro rfl
    rfl
  . intro hempty
    obtain ⟨entries, currentBatch⟩ := s
    cases hempty
    cases h.entries_eq_nil_iff.mp rfl
    rfl

theorem Valid.card_batches_undone (h : s.Valid) :
    s.undone.batches.card = s.batches.card - 1 := by
  rw [batches_undone]
  obtain ⟨hempty, _⟩ | hnewest := h.current
  . have hnone := card_batches_eq_zero_iff.mpr hempty
    rw [Finset.card_eq_zero.mp hnone]
    rfl
  . exact Finset.card_erase_of_mem (mem_batches.mpr hnewest)

end State

def reliable : Server Access (Option Text) where
  Admits _ _ := True
  Serves
    | .acquire, content?, reply, content?' => reply = .ok () ∧ content?' = content?
    | .read, content?, reply, content?' => reply = .ok content? ∧ content?' = content?
    | .replace new, _, reply, content?' => reply = .ok () ∧ content?' = some new
    | _, content?, _, content?' => content?' = content?

section Reliable

variable {α : Type} {path : Path} {content? : Option Text} {s : State} {l : Ledger}
  {Q : Except Failure α → Option Text → Prop}

theorem reliable_heedless : Heedless reliable where
  admits _ _ := trivial
  same h := h
  admits_keep _ _ := trivial
  serves_keep := Iff.rfl

theorem underLease_reliable {operation : Program Access Failure α}
    (h : Ensures reliable operation content? Q) :
    Ensures reliable (underLease operation) content? Q := by
  refine ⟨trivial, ?_⟩
  rintro _ _ ⟨rfl, rfl⟩
  change Ensures reliable (operation.andFinally (ask .release)) _ Q
  rw [Program.ensures_andFinally]
  apply h.mono
  intro outcome content?' hQ
  refine ⟨trivial, ?_⟩
  rintro _ _ rfl
  exact hQ

theorem readState_reliable (hdecode : decodeFile path content? = .ok s)
    {f : State → Program Access Failure α} (h : Ensures reliable (f s) content? Q) :
    Ensures reliable (readState path >>= f) content? Q := by
  refine ⟨trivial, ?_⟩
  rintro _ _ ⟨rfl, rfl⟩
  change Ensures reliable (Program.ofExcept (decodeFile path _) >>= f) _ Q
  rw [hdecode]
  exact h

theorem writeState_reliable {f : Unit → Program Access Failure α} (hutf8 : s.Utf8)
    (h : Ensures reliable (f ()) (some s.encode) Q) :
    Ensures reliable (writeState s >>= f) content? Q := by
  unfold writeState
  rw [State.serialize_eq hutf8]
  refine ⟨trivial, ?_⟩
  rintro _ _ ⟨rfl, rfl⟩
  exact h

theorem rollBack_reliable (hdecode : decodeFile l.path content? = .ok s) :
    Ensures reliable l.rollBack content? fun outcome _ => outcome.isOk = true := by
  unfold rollBack
  apply underLease_reliable
  apply readState_reliable hdecode
  dsimp only
  split
  . exact reliable_heedless.take_bind l s rfl
  . apply writeState_reliable (State.without_utf8 (utf8_of_decodeFile hdecode) _)
    apply reliable_heedless.take_bind
    apply reliable_heedless.log_bind
    apply reliable_heedless.forM_log_bind
    rfl

theorem remove_reliable (hdecode : decodeFile l.path content? = .ok s) (files : List Text) :
    Ensures reliable (l.remove files) content? fun outcome _ => outcome.isOk = true := by
  unfold remove
  split
  . rfl
  . apply underLease_reliable
    apply readState_reliable hdecode
    apply writeState_reliable (State.without_utf8 (utf8_of_decodeFile hdecode) _)
    apply reliable_heedless.take_bind
    apply reliable_heedless.log_bind
    apply reliable_heedless.forM_log_bind
    rfl

end Reliable

section Exec

variable {l l' : Ledger} {options : Lease.Options} {world world' : Files} {s : State}

theorem rollBack_of_exec (hdecode : decodeFile l.path (world l.path) = .ok s)
    {result : List Text × Ledger}
    (hexec : Exec (World.server (File.Owns l.path)) (onDisk l.path options l.rollBack) world
      (.ok result) world') :
    result = ((s.lastBatch.map (·.file)).reverse, ⟨l.path, s.undone⟩) ∧
      decodeFile l.path (world' l.path) = .ok s.undone := by
  have hvalid := valid_of_decodeFile hdecode
  obtain ⟨session, hsees, hends, hnames⟩ := (onDisk_ensures
    (ensures_of_session (Session.rollBack_ensures l) (world l.path)) options).of_exec hexec
  obtain ⟨names, l'⟩ := result
  have hperforms := Session.Ends.performs hends hsees hdecode
  obtain ⟨v, s', rfl, hdecode', hnames⟩ := hnames _ rfl
  rw [hsees.1] at hdecode'
  cases hdecode'.symm.trans hdecode
  cases hnames
  generalize world' l.path = content?' at hperforms ⊢
  cases hperforms with
  | skipped hm => cases hm
  | empty _ hzero =>
    rw [hvalid.undone_eq_self hzero]
    exact ⟨rfl, hdecode⟩
  | wrote hwrites =>
    have hrange := hwrites.inRange (inRange_of_decodeFile hdecode)
    have hutf8 := hwrites.utf8 (utf8_of_decodeFile hdecode)
    cases hwrites with
    | rollBack _ =>
      refine ⟨rfl, decodeFile_encode hrange hutf8 ?_⟩
      exact State.fault?_eq_none_iff_valid.mpr (hvalid.without _)

theorem remove_of_exec {files : List Text}
    (hdecode : decodeFile l.path (world l.path) = .ok l.state)
    (hexec : Exec (World.server (File.Owns l.path)) (onDisk l.path options (l.remove files)) world
      (.ok l') world') :
    l' = ⟨l.path, l.state.without (files.contains ·.file)⟩ ∧
      decodeFile l.path (world' l.path) = .ok (l.state.without (files.contains ·.file)) := by
  have hvalid := valid_of_decodeFile hdecode
  obtain ⟨session, hsees, hends⟩ := ends_of_exec (o := .mutate (.remove files)) hexec
  have hperforms := hends.performs hsees hdecode
  generalize world' l.path = content?' at hperforms ⊢
  cases hperforms with
  | skipped hm =>
    cases hm
    have hsame : l.state.without (([] : List Text).contains ·.file) = l.state :=
      hvalid.without_eq_self fun _ _ => rfl
    rw [hsame]
    exact ⟨rfl, hdecode⟩
  | empty hm => cases hm
  | wrote hwrites =>
    have hrange := hwrites.inRange (inRange_of_decodeFile hdecode)
    have hutf8 := hwrites.utf8 (utf8_of_decodeFile hdecode)
    cases hwrites with
    | remove _ =>
      refine ⟨rfl, decodeFile_encode hrange hutf8 ?_⟩
      exact State.fault?_eq_none_iff_valid.mpr (hvalid.without _)

end Exec

/--
An operation leads from a content of the ledger file to a result, and to a file that says `s`. It
succeeds if the file can be read and written and its lease is to be had. Where it succeeds on the
file system, it does so whatever happens to all other files meanwhile.
-/
structure Leads {α : Type} (path : Path) (operation : Program Access Failure α)
    (content? : Option Text) (result : α) (s : State) : Prop where
  succeeds : Ensures reliable operation content? fun outcome _ => outcome.isOk = true
  result_eq {options : Lease.Options} {world world' : Files} {result' : α}
    (hcontent : world path = content?)
    (hexec : Exec (World.server (File.Owns path)) (onDisk path options operation) world
      (.ok result') world') : result' = result ∧ decodeFile path (world' path) = .ok s

section Leads

variable {l l' : Ledger} {content? : Option Text} {s : State}

theorem rollBack_leads (hdecode : decodeFile l.path content? = .ok s) :
    Leads l.path l.rollBack content? ((s.lastBatch.map (·.file)).reverse, ⟨l.path, s.undone⟩)
      s.undone where
  succeeds := rollBack_reliable hdecode
  result_eq := by
    rintro _ _ _ _ rfl hexec
    exact rollBack_of_exec hdecode hexec

theorem remove_lastBatch_leads (hdecode : decodeFile l.path content? = .ok l.state) :
    Leads l.path (l.remove (l.state.lastBatch.map (·.file))) content? ⟨l.path, l.state.undone⟩
      l.state.undone where
  succeeds := remove_reliable hdecode _
  result_eq := by
    rintro _ _ _ _ rfl hexec
    rw [← (valid_of_decodeFile hdecode).without_files_lastBatch]
    exact remove_of_exec hdecode hexec

end Leads

/--
A ledger rolls its ledger file back again and again, with success. This gives the names of the
migrations that were removed each time.
-/
inductive RollBacks : Ledger → Files → List (List Text) → Ledger → Files → Prop
  | none (l : Ledger) (world : Files) : RollBacks l world [] l world
  | next {l l' l'' : Ledger} {world world' world'' : Files} {options : Lease.Options}
    {names : List Text} {removed : List (List Text)}
    (hexec : Exec (World.server (File.Owns l.path)) (onDisk l.path options l.rollBack) world
      (.ok (names, l')) world')
    (hrest : RollBacks l' world' removed l'' world'') :
    RollBacks l world (names :: removed) l'' world''

/-- Each time one batch goes, and what goes and what is left make up what was there. -/
theorem RollBacks.partition {l l' : Ledger} {world world' : Files} {removed : List (List Text)}
    (h : RollBacks l world removed l' world')
    (hdecode : decodeFile l.path (world l.path) = .ok l.state) :
    decodeFile l.path (world' l.path) = .ok l'.state ∧
      (removed.flatten ++ l'.state.files).Perm l.state.files ∧
        l'.state.batches.card = l.state.batches.card - removed.length := by
  induction h with
  | none l world => exact ⟨hdecode, .refl _, rfl⟩
  | @next l l' l'' world world' world'' options names removed hexec hrest ih =>
    have hvalid := valid_of_decodeFile hdecode
    obtain ⟨heq, hfile⟩ := rollBack_of_exec hdecode hexec
    cases heq
    obtain ⟨hlast, hperm, hcard⟩ := ih hfile
    refine ⟨hlast, ?_, ?_⟩
    . rw [List.flatten_cons, List.append_assoc]
      exact (hperm.append_left _).trans hvalid.files_undone_perm
    . rw [hcard, hvalid.card_batches_undone, List.length_cons]
      omega

/--
Rolling back undoes recording: behind a batch that was recorded, the newest batch consists of its
files, the last one first, and removing it, as a batch or by the names of its migrations, leads back
to the ledger as it was. Both ways to remove the newest batch of any ledger lead to the same one.
Rolled back again and again, a ledger is empty as soon as this has been done once for each of its
batches, and then each migration has been removed once.
-/
theorem rollBack_undoes_record {path : Path} {content? : Option Text} {s : State}
    (hdecode : decodeFile path content? = .ok s) :
    (∀ t : State, Leads path (Ledger.rollBack ⟨path, t⟩) content?
      ((s.lastBatch.map (·.file)).reverse, ⟨path, s.undone⟩) s.undone) ∧
    Leads path (Ledger.remove ⟨path, s⟩ (s.lastBatch.map (·.file))) content? ⟨path, s.undone⟩
      s.undone ∧
    (∀ (t : State) (files : List MigrationFile) (options : Lease.Options) (world world' : Files)
      (l : Ledger), world path = content? → s.currentBatch < State.maxBatch →
      (∀ f ∈ files, f.name ≠ []) →
      Exec (World.server (File.Owns path)) (onDisk path options (Ledger.record ⟨path, t⟩ files))
        world (.ok l) world' →
      (∃ appliedAt, l.state.lastBatch =
        (files.map fun f => ⟨f.name, f.hash, appliedAt, s.currentBatch + 1⟩).reverse) ∧
      Leads path l.rollBack (world' path) (files.map (·.name), ⟨path, s⟩) s ∧
      Leads path (l.remove (l.state.lastBatch.map (·.file))) (world' path) ⟨path, s⟩ s) ∧
    ∀ (removed : List (List Text)) (world world' : Files) (l : Ledger), world path = content? →
      RollBacks ⟨path, s⟩ world removed l world' →
      decodeFile path (world' path) = .ok l.state ∧
      (removed.flatten ++ l.state.files).Perm s.files ∧
      l.state.batches.card = s.batches.card - removed.length ∧
      (l.state = .empty ↔ s.batches.card ≤ removed.length) := by
  have hvalid := valid_of_decodeFile hdecode
  refine ⟨?_, ?_, ?_, ?_⟩
  . exact fun t => rollBack_leads (l := ⟨path, t⟩) hdecode
  . exact remove_lastBatch_leads (l := ⟨path, s⟩) hdecode
  . rintro t files options world world' l rfl hbelow hnamed hexec
    obtain ⟨hne, hfresh, appliedAt, hutf8, rfl, hfile⟩ :=
      record_of_exec (l := ⟨path, t⟩) hdecode hexec
    have hlast : (s.withBatch files appliedAt).lastBatch = _ :=
      hvalid.lastBatch_withBatch hbelow appliedAt
    have hundone : (s.withBatch files appliedAt).undone = s :=
      hvalid.undone_withBatch hbelow appliedAt
    have hread : decodeFile path (world' path) = .ok (s.withBatch files appliedAt) := by
      rw [hfile]
      exact decodeFile_withBatch hdecode hbelow hne hnamed hfresh hutf8
    have hrollBack := rollBack_leads (l := ⟨path, s.withBatch files appliedAt⟩) hread
    have hremove := remove_lastBatch_leads (l := ⟨path, s.withBatch files appliedAt⟩) hread
    have hnames : ((s.withBatch files appliedAt).lastBatch.map (·.file)).reverse =
        files.map (·.name) := by
      rw [hlast, List.map_reverse, List.reverse_reverse, List.map_map]
      rfl
    rw [hnames, hundone] at hrollBack
    rw [hundone] at hremove
    exact ⟨⟨appliedAt, hlast⟩, hrollBack, hremove⟩
  . rintro removed world world' l rfl hrollBacks
    obtain ⟨hread, hperm, hcard⟩ := hrollBacks.partition hdecode
    refine ⟨hread, hperm, hcard, ?_⟩
    rw [(valid_of_decodeFile hread).eq_empty_iff, hcard, Nat.sub_eq_zero_iff_le]

/--
A ledger whose batches are not in order and have a gap, to which one more batch is recorded, and
which is rolled back until it is empty.
-/
theorem rollBack_undoes_record_out_of_order :
    let path := ascii "ledger.json"
    let s : State := ⟨[⟨ascii "c", ascii "x", [], 3⟩, ⟨ascii "a", ascii "y", [], 1⟩,
      ⟨ascii "b", ascii "z", [], 3⟩], 3⟩
    let world := Files.set (fun _ => none) path (some s.encode)
    let files : List MigrationFile := [⟨ascii "e", ascii "v"⟩, ⟨ascii "d", ascii "w"⟩]
    decodeFile path (world path) = .ok s ∧
    (∃ (l : Ledger) (world' : Files),
      Exec (World.server (File.Owns path)) (onDisk path ⟨0, 0⟩ (Ledger.record ⟨path, .empty⟩ files))
        world (.ok l) world' ∧
      Leads path l.rollBack (world' path) ([ascii "e", ascii "d"], ⟨path, s⟩) s) ∧
    ∃ (l : Ledger) (world' : Files),
      RollBacks ⟨path, s⟩ world [[ascii "c", ascii "b"], [ascii "a"]] l world' ∧
      l.state = .empty := by
  intro path s world files
  have hdecode : decodeFile path (world path) = .ok s := by
    dsimp only [world]
    rw [Files.set_same]
    exact decodeFile_of_decode (by decide +kernel)
  obtain ⟨hrollBack, _, hrecord, hrollBacks⟩ := rollBack_undoes_record hdecode
  refine ⟨hdecode, ?_, ?_⟩
  . obtain ⟨l, hexec⟩ := World.exists_exec_obliging []
      (onDisk path ⟨0, 0⟩ (Ledger.record ⟨path, .empty⟩ files)) world (by decide +kernel)
      (File.Owns path)
    have hundoes := hrecord .empty files ⟨0, 0⟩ world _ l rfl (by decide) (by decide) hexec
    exact ⟨l, _, hexec, hundoes.2.1⟩
  . let first := onDisk path ⟨0, 0⟩ (Ledger.rollBack ⟨path, s⟩)
    let second := onDisk path ⟨0, 0⟩ (Ledger.rollBack ⟨path, s.undone⟩)
    let world₁ := (first.run (World.obliging []) world).2
    obtain ⟨_, hexec⟩ := World.exists_exec_obliging [] first world (by decide +kernel)
      (File.Owns path)
    obtain ⟨rfl, hdecode₁⟩ := (hrollBack s).result_eq rfl hexec
    obtain ⟨_, hexec₁⟩ := World.exists_exec_obliging [] second world₁ (by decide +kernel)
      (File.Owns path)
    obtain ⟨rfl, _⟩ := ((rollBack_undoes_record hdecode₁).1 s.undone).result_eq rfl hexec₁
    have hlast := RollBacks.next (l := ⟨path, s.undone⟩) hexec₁ (.none _ _)
    have hruns := RollBacks.next (l := ⟨path, s⟩) hexec hlast
    exact ⟨_, _, hruns, (hrollBacks _ _ _ _ rfl hruns).2.2.2.mpr (by decide)⟩

end SchemaMigration.Ledger

import SchemaMigration.Proofs.Ledger.Atomicity

/-!
This module contains that the write probe never changes what a ledger says, whether it succeeds or
not: the ledger file is left as it was, or it is written anew with the same state.
-/

namespace SchemaMigration.Ledger

open Program (Exec)

variable {path : Path} {content? : Option Text} {s : State}

/-- The probe has left the ledger file as it was, or has written the state that it found. -/
inductive Probed (path : Path) (content? : Option Text) :
    Except Failure Ledger → Option Text → Prop
  | kept (e : Failure) : Probed path content? (.error e) content?
  | wrote {result : Except Failure Ledger} {s : State}
    (hdecode : decodeFile path content? = .ok s) : Probed path content? result (some s.encode)

theorem probed_of_exec {l : Ledger} {options : Lease.Options} {files files' : Files}
    {outcome : Except Failure (Except Failure Ledger × Ledger)}
    (hexec : Exec (World.server (File.Owns l.path)) (l.call options (Operation.probe.program ·))
      files outcome files') :
    ∃ result, outcome = .ok (result, l) ∧
      Probed l.path (files l.path) result (files' l.path) := by
  obtain ⟨result, rfl, session, hsees, hends⟩ := ends_of_call hexec
  refine ⟨result, ?_⟩
  cases hends with
  | refused e =>
    rw [show files' l.path = files l.path from hsees]
    exact ⟨rfl, .kept e⟩
  | @failed e v hturn hfault =>
    obtain ⟨start?, written?⟩ := v
    obtain ⟨rfl, hcontent⟩ := hsees
    rw [hcontent]
    cases hturn with
    | nothing => exact ⟨rfl, .kept e⟩
    | state hdecode hwrites =>
      cases hwrites
      exact ⟨rfl, .wrote hdecode⟩
  | probed _ hdecode =>
    obtain ⟨rfl, hcontent⟩ := hsees
    rw [hcontent]
    exact ⟨rfl, .wrote hdecode⟩
  | skipped ho => cases ho
  | read hreads => cases hreads
  | wrote ho => cases ho

/-- What was read can be written, and is read back as it was. -/
theorem decode_encode_of_decodeFile (h : decodeFile path content? = .ok s) :
    State.decode s.encode = .ok s :=
  State.decode_encode (inRange_of_decodeFile h) (utf8_of_decodeFile h) (fault?_of_decodeFile h)

/--
Whatever requests of the write probe fail, the ledger says behind it what it said before. The probe
refuses a malformed file and leaves its bytes alone. A valid one is left alone or written anew, such
that the same state is read from it. An absent one stays absent or becomes an empty ledger. The
state in memory does not change, and behind a probe that succeeds there is a ledger file that can be
read.
-/
theorem probe_keeps_ledger {l : Ledger} {options : Lease.Options} {files files' : Files}
    {outcome : Except Failure (Except Failure Ledger × Ledger)}
    (hexec : Exec (World.server (File.Owns l.path)) (l.call options (Operation.probe.program ·))
      files outcome files') :
    ∃ result l', outcome = .ok (result, l') ∧
    (∀ content fault, files l.path = some content → State.decode content = .error fault →
      files' l.path = some content ∧ ∃ e, result = .error e) ∧
    (∀ content s, files l.path = some content → State.decode content = .ok s →
      ∃ content', files' l.path = some content' ∧ State.decode content' = .ok s) ∧
    (files l.path = none → files' l.path = none ∨
      ∃ content', files' l.path = some content' ∧ State.decode content' = .ok .empty) ∧
    l' = l ∧
    (result.isOk → ∃ content' s, files' l.path = some content' ∧
      State.decode content' = .ok s) := by
  obtain ⟨result, rfl, hprobed⟩ := probed_of_exec hexec
  refine ⟨result, l, rfl, ?_⟩
  generalize files l.path = content?, files' l.path = content?' at hprobed
  cases hprobed with
  | kept e =>
    refine ⟨?_, ?_, .inl, rfl, nofun⟩
    . exact fun content fault hcontent _ => ⟨hcontent, e, rfl⟩
    . exact fun content s hcontent hdecode => ⟨content, hcontent, hdecode⟩
  | @wrote _ s hdecode =>
    have hencode := decode_encode_of_decodeFile hdecode
    refine ⟨?_, ?_, ?_, rfl, fun _ => ⟨_, s, rfl, hencode⟩⟩
    . rintro content fault rfl hfault
      rw [decodeFile_some, hfault] at hdecode
      cases hdecode
    . rintro content s' rfl hdecode'
      rw [decodeFile_of_decode hdecode'] at hdecode
      cases hdecode
      exact ⟨_, rfl, hencode⟩
    . rintro rfl
      cases hdecode
      exact .inr ⟨_, rfl, hencode⟩

/--
A ledger in other words than those in which it is written, where the directory cannot be forced to
disk: the probe fails, the file has other bytes, and it says what it said.
-/
theorem probe_keeps_ledger_in_other_words :
    let l : Ledger := .new (ascii "ledger.json")
    let content := ascii "\x7b\"currentBatch\":0,\"entries\":[]\x7d"
    let files := Files.set (fun _ => none) l.path (some content)
    State.decode content = .ok .empty ∧
    ∃ (e : Failure) (files' : Files) (content' : Text),
      Exec (World.server (File.Owns l.path)) (l.call ⟨0, 0⟩ (Operation.probe.program ·)) files
          (.ok (.error e, l)) files' ∧
        files' l.path = some content' ∧ content' ≠ content ∧
          State.decode content' = .ok .empty := by
  intro l content files
  have hdecode : State.decode content = .ok .empty := by decide +kernel
  refine ⟨hdecode, ?_⟩
  obtain ⟨result, hresult, hfailed, hchanged⟩ : ∃ result,
      (l.call ⟨0, 0⟩ (Operation.probe.program ·)).run unsyncing files = result ∧
        result.1.toOption.map (fun (outcome, l') => (outcome.isOk, l')) = some (false, l) ∧
        result.2 l.path ≠ some content :=
    ⟨_, rfl, by decide +kernel⟩
  have hexec := exec_unsyncing hresult (File.Owns l.path)
  obtain ⟨outcome, files'⟩ := result
  match outcome, hfailed with
  | .ok (.error e, _), rfl =>
    obtain ⟨_, _, _, _, hvalid, _⟩ := probe_keeps_ledger hexec
    obtain ⟨content', hcontent', hdecode'⟩ :=
      hvalid content .empty (Files.set_same _ _ _) hdecode
    refine ⟨e, files', content', hexec, hcontent', ?_, hdecode'⟩
    rintro rfl
    exact hchanged hcontent'

end SchemaMigration.Ledger

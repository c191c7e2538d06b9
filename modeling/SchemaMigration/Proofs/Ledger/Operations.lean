import SchemaMigration.Proofs.Ledger.Serial
import SchemaMigration.Proofs.Lease.Footprint
import SchemaMigration.Proofs.Replacement

/-!
This module contains what the operations on a ledger do to the ledger file. They are looked at in
their own terms first, as programs that read and replace the content of one file. On the file system
they behave in this way if nobody else changes the ledger file. An operation that fails leaves the
file as it was, unless all that failed is to force the directory to disk.
-/

namespace SchemaMigration.Ledger

open Program (Ensures Exec Within)

def server (path : Path) : Server Access (Option Text) where
  Admits _ _ := True
  Serves
    | .read, content?, reply, content?' =>
      (∀ found?, reply = .ok found? → found? = content?) ∧ content?' = content?
    | .replace new, _, .ok _, content?' => content?' = some new
    | .replace new, content?, .error e, content?' =>
      content?' = content? ∨ (File.Unsynced path e ∧ content?' = some new)
    | _, content?, _, content?' => content?' = content?

theorem apart_lockPath (path : Path) : Lease.Apart path (Lease.lockPath path) where
  ne_lock h := by
    have := congrArg List.length h
    simp only [Lease.lockPath, List.length_append, Nat.left_eq_add, List.length_eq_zero_iff] at this
    exact absurd this (by decide)
  ne_guard h := by
    have := congrArg List.length h
    simp only [Lease.lockPath, Lease.guardPath, List.append_assoc, List.length_append,
      Nat.left_eq_add, Nat.add_eq_zero_iff, List.length_eq_zero_iff] at this
    exact absurd this.1 (by decide)
  ne_temporary token h := by
    have := congrArg List.length h
    simp [Lease.lockPath, File.temporaryPath] at this

section Serve

variable {path : Path} {lease : Lease}

theorem serve_acquire (files : Files) (hlease : lease.path = Lease.lockPath path) :
    Ensures (World.server (File.Owns path)) (serve path .acquire lease) files
      fun outcome files' => ∃ reply lease', outcome = .ok (reply, lease') ∧
        lease'.path = Lease.lockPath path ∧ files' path = files path := by
  have h : Lease.Apart path lease.path := hlease ▸ apart_lockPath path
  unfold serve
  rw [Program.ensures_bind, Program.ensures_attempt]
  have hspares := Within.mono (fun _ => h.spares) (lease.acquire_makes lease.options.timeout)
  apply (hspares.spares (File.owns_self path) files).mono
  rintro outcome files' ⟨hkeeps, hsame⟩
  cases outcome with
  | error e => exact ⟨_, lease, rfl, hlease, hsame⟩
  | ok lease' => exact ⟨_, lease', rfl, (hkeeps lease' rfl).trans hlease, hsame⟩

theorem serve_release (files : Files) (hlease : lease.path = Lease.lockPath path) :
    Ensures (World.server (File.Owns path)) (serve path .release lease) files
      fun outcome files' => ∃ reply lease', outcome = .ok (reply, lease') ∧
        lease'.path = Lease.lockPath path ∧ files' path = files path := by
  have h : Lease.Apart path lease.path := hlease ▸ apart_lockPath path
  unfold serve
  rw [Program.ensures_bind]
  have hspares := Within.mono (fun _ => h.spares) lease.release_makes
  apply (hspares.spares (File.owns_self path) files).mono
  rintro _ files' ⟨⟨lease', rfl, hpath⟩, hsame⟩
  exact ⟨_, lease', rfl, hpath.trans hlease, hsame⟩

theorem readIfExists_ensures (path : Path) (files : Files) :
    Ensures (World.server (File.Owns path)) (File.readIfExists path) files fun outcome files' =>
      (∀ found?, outcome = .ok found? → found? = files path) ∧ files' path = files path := by
  unfold File.readIfExists
  rw [Program.ensures_call_bind]
  refine ⟨trivial, fun reply files' hserves => ?_⟩
  obtain ⟨edited, hedited, hread, rfl⟩ := hserves
  have hsame := hedited path (File.owns_self path)
  cases reply with
  | error errno => exact ⟨nofun, hsame⟩
  | ok found? =>
    refine ⟨?_, hsame⟩
    rintro _ ⟨⟩
    rw [hread found? rfl, hsame]

theorem serve_ensures (r : Request) (lease : Lease) (files : Files)
    (hlease : lease.path = Lease.lockPath path) :
    Ensures (World.server (File.Owns path)) (serve path r lease) files
      fun outcome files' => ∃ reply lease', outcome = .ok (reply, lease') ∧
        lease'.path = Lease.lockPath path ∧
          (server path).Serves r (files path) reply (files' path) := by
  cases r with
  | acquire => exact serve_acquire files hlease
  | release => exact serve_release files hlease
  | read =>
    unfold serve
    rw [Program.ensures_bind, Program.ensures_attempt]
    apply (readIfExists_ensures path files).mono
    intro outcome files' h
    exact ⟨outcome, lease, rfl, hlease, h⟩
  | replace new =>
    unfold serve
    rw [Program.ensures_bind, Program.ensures_attempt]
    apply (File.writeAtomic_ensures path new files).mono
    intro outcome files' h
    refine ⟨outcome, lease, rfl, hlease, ?_⟩
    cases h with
    | done hnew => exact hnew
    | refused hold => exact .inl hold
    | unsynced he hnew => exact .inr ⟨he, hnew⟩
  | keep state => exact ⟨(), lease, rfl, hlease, rfl⟩
  | now =>
    refine ⟨trivial, fun now files' hserves => ?_⟩
    exact ⟨now, lease, rfl, hlease, World.serves_spares hserves (File.owns_self path) trivial⟩
  | log entry =>
    refine ⟨trivial, fun _ files' hserves => ?_⟩
    exact ⟨(), lease, rfl, hlease, World.serves_spares hserves (File.owns_self path) trivial⟩

/-- The requests by which those of a ledger operation are served. -/
theorem serve_within {Allowed : World.Request → Prop}
    (hmakes : ∀ r, Lease.Makes lease.path r → Allowed r)
    (hhandles : ∀ r, File.Handles r → Allowed r) (hread : Allowed (.read path))
    (hnow : Allowed .now) {r : Request} (hlog : ∀ entry, r = .log entry → Allowed (.log entry)) :
    Within Allowed (serve path r lease) := by
  cases r with
  | acquire =>
    have hacquire : Within (Lease.Makes lease.path) (lease.acquire lease.options.timeout) :=
      (lease.acquire_makes _).mono fun _ _ _ => trivial
    refine Within.bind (Within.attempt (Within.mono hmakes hacquire)) fun outcome => ?_
    cases outcome with
    | ok lease => exact Within.pure _
    | error e => exact Within.pure _
  | release =>
    have hrelease : Within (Lease.Makes lease.path) lease.release :=
      lease.release_makes.mono fun _ _ _ => trivial
    exact Within.bind (Within.mono hmakes hrelease) fun _ => Within.pure _
  | read =>
    exact Within.bind (Within.attempt (File.readIfExists_within hread)) fun _ => Within.pure _
  | replace content =>
    have hwrite := Within.mono hhandles (File.writeAtomic_within path content)
    exact Within.bind (Within.attempt hwrite) fun _ => Within.pure _
  | keep state => exact Within.pure _
  | now => exact Within.bind (Within.call hnow) fun _ => Within.pure _
  | log entry => exact Within.bind (Within.call (hlog entry rfl)) fun _ => Within.pure _

theorem onDisk_ensures {α : Type} {operation : Program Access Failure α} {files : Files}
    {Q : Except Failure α → Option Text → Prop}
    (h : Ensures (server path) operation (files path) Q)
    (options : Lease.Options) :
    Ensures (World.server (File.Owns path)) (onDisk path options operation) files
      fun outcome files' => Q outcome (files' path) :=
  Ensures.serveBy (fun files : Files => files path) (·.path = Lease.lockPath path) serve_ensures h
    rfl

end Serve

def Session.Sees (start? : Option Text) : Session → Option Text → Prop
  | .outside, content? => content? = start?
  | .inside v, content? | .left v, content? => v.start? = start? ∧ content? = v.content?

theorem Session.sees_serves {path : Path} {o : Operation} {start? : Option Text} {r : Request}
    {s : Session} {content? content?' : Option Text} {reply : Reply r}
    (hsees : s.Sees start? content?)
    (hadmits : (Session.server path o (File.Unsynced path)).Admits r s)
    (hserves : (Ledger.server path).Serves r content? reply content?') :
    ∃ s', (Session.server path o (File.Unsynced path)).Serves r s reply s' ∧
      s'.Sees start? content?' := by
  cases r with
  | acquire =>
    cases hserves
    cases hadmits
    cases reply with
    | error e => exact ⟨.outside, rfl, hsees⟩
    | ok _ => exact ⟨.inside ⟨start?, none⟩, ⟨start?, rfl⟩, rfl, hsees⟩
  | release =>
    cases hserves
    obtain ⟨v, rfl⟩ := hadmits
    exact ⟨.left v, rfl, hsees⟩
  | read =>
    obtain ⟨hread, rfl⟩ := hserves
    obtain ⟨v, rfl⟩ := hadmits
    exact ⟨.inside v, ⟨fun found? h => (hread found? h).trans hsees.2, rfl⟩, hsees⟩
  | replace new =>
    obtain ⟨found?, rfl, _⟩ := hadmits
    obtain ⟨rfl, rfl⟩ := hsees
    cases reply with
    | ok _ => exact ⟨.inside ⟨_, some new⟩, rfl, rfl, hserves⟩
    | error e =>
      cases hserves with
      | inl hkept => exact ⟨.inside ⟨_, none⟩, .inl rfl, rfl, hkept⟩
      | inr hreplaced =>
        exact ⟨.inside ⟨_, some new⟩, .inr ⟨hreplaced.1, rfl⟩, rfl, hreplaced.2⟩
  | keep _ | now | log _ =>
    cases hserves
    exact ⟨s, rfl, hsees⟩

theorem ensures_of_session {α : Type} {path : Path} {o : Operation}
    {p : Program Access Failure α} {Q : Except Failure α → Session → Prop}
    (h : Ensures (Session.server path o (File.Unsynced path)) p .outside Q)
    (content? : Option Text) :
    Ensures (server path) p content? fun outcome content?' =>
      ∃ s : Session, s.Sees content? content?' ∧ Q outcome s :=
  h.simulate (fun s content?' => s.Sees content? content?') (fun _ _ _ _ _ => trivial)
    (fun _ _ _ _ _ => Session.sees_serves) rfl

theorem ends_of_exec {l : Ledger} {o : Operation} {options : Lease.Options} {files files' : Files}
    {outcome : Except Failure Ledger}
    (hexec : Exec (World.server (File.Owns l.path)) (onDisk l.path options (o.program l)) files
      outcome files') :
    ∃ s : Session, s.Sees (files l.path) (files' l.path) ∧
      Session.Ends l.path o (File.Unsynced l.path) l outcome s :=
  (onDisk_ensures (ensures_of_session (Session.program_ensures o l) (files l.path))
    options).of_exec hexec

/-- The entries with one more batch at the end, of migrations that were not recorded before. -/
inductive Appended (files : List MigrationFile) (entries : List Entry) : List Entry → Prop
  | batch {number : Int} (appliedAt : Text) (hnumber : ∀ e ∈ entries, e.batch ≠ number)
    (hfresh : Fresh id (entries.map (·.file)) (files.map (·.name))) :
    Appended files entries (entries ++ files.map fun f => ⟨f.name, f.hash, appliedAt, number⟩)

/-- No batch has the number of the next one, not even where the numbers begin anew. -/
theorem batch_ne_of_decodeFile {path : Path} {content? : Option Text} {s : State}
    (h : decodeFile path content? = .ok s) :
    ∀ e ∈ s.entries, e.batch ≠ signed32 (s.currentBatch + 1) := by
  intro e he
  have hsound := (State.fault?_eq_none_iff.mp (fault?_of_decodeFile h)).2.1 e he
  have hpositive := hsound.one_le_batch
  have hle := hsound.batch_le
  have hrange := (inRange_of_decodeFile h).currentBatch
  simp only [Json.inRange, Bool.and_eq_true, decide_eq_true_eq] at hrange
  rw [State.signed32_eq]
  omega

variable {content? : Option Text}

theorem entries_written {path : Path} {o : Operation} {old new : State}
    (hdecode : decodeFile path content? = .ok old) (hwrites : o.Writes old new) :
    entries (some new.encode) = new.entries :=
  entries_encode (hwrites.inRange (inRange_of_decodeFile hdecode))
    (hwrites.utf8 (utf8_of_decodeFile hdecode))

theorem appended_of_writes {path : Path} {files : List MigrationFile} {old new : State}
    (hdecode : decodeFile path content? = .ok old)
    (hwrites : Mutation.Writes (.record files) old new) :
    Appended files (entries content?) (entries (some new.encode)) := by
  rw [entries_written hdecode (.mutate hwrites), entries_of_decodeFile hdecode]
  cases hwrites with
  | record appliedAt hne hfresh =>
    exact .batch appliedAt (batch_ne_of_decodeFile hdecode) hfresh

theorem entries_of_remove {path : Path} {files : List Text} {old new : State}
    (hdecode : decodeFile path content? = .ok old)
    (hwrites : Mutation.Writes (.remove files) old new) :
    entries (some new.encode) = (entries content?).filter (!files.contains ·.file) := by
  rw [entries_written hdecode (.mutate hwrites), entries_of_decodeFile hdecode]
  cases hwrites
  rfl

inductive Mutated (path : Path) (m : Mutation) (content? : Option Text) :
    Bool → Option Text → Prop
  | kept : Mutated path m content? false content?
  | skipped (hm : m = .remove []) : Mutated path m content? true content?
  | wrote {ok : Bool} {old new : State} (hdecode : decodeFile path content? = .ok old)
    (hwrites : m.Writes old new) : Mutated path m content? ok (some new.encode)

/-- The ledger file says what it said before, in the same words or in others. -/
def Restated (path : Path) (content? content?' : Option Text) : Prop :=
  content?' = content? ∨ ∃ s, decodeFile path content? = .ok s ∧ content?' = some s.encode

theorem Restated.entries {path : Path} {content?' : Option Text}
    (h : Restated path content? content?') : entries content?' = Ledger.entries content? := by
  obtain rfl | ⟨s, hdecode, rfl⟩ := h
  . rfl
  . rw [entries_encode (inRange_of_decodeFile hdecode) (utf8_of_decodeFile hdecode),
      entries_of_decodeFile hdecode]

theorem load_ensures (l : Ledger) :
    Ensures (server l.path) l.load content? fun outcome content?' =>
      content?' = content? ∧
        ∀ l', outcome = .ok l' → decodeFile l.path content? = .ok l'.state := by
  apply (ensures_of_session (Session.load_ensures l) content?).mono
  rintro outcome content?' ⟨s, hsees, hends⟩
  cases hends with
  | refused e => exact ⟨hsees, nofun⟩
  | @failed e v hturn hfault =>
    obtain ⟨found?, written?⟩ := v
    obtain ⟨rfl, rfl⟩ := hsees
    cases hturn with
    | nothing => exact ⟨rfl, nofun⟩
    | state _ hwrites => cases hwrites
  | read _ hdecode =>
    obtain ⟨rfl, rfl⟩ := hsees
    refine ⟨rfl, ?_⟩
    rintro _ ⟨⟩
    exact hdecode
  | skipped ho => cases ho
  | probed ho => cases ho
  | wrote ho => cases ho

theorem mutate_ensures (l : Ledger) (m : Mutation) (hm : m ≠ .rollBack) :
    Ensures (server l.path) (m.program l) content? fun outcome content?' =>
      Mutated l.path m content? outcome.isOk content?' := by
  have hsession : Ensures (Session.server l.path (.mutate m) (File.Unsynced l.path)) (m.program l)
      .outside (Session.Ends l.path (.mutate m) (File.Unsynced l.path) l) :=
    Session.program_ensures (.mutate m) l
  apply (ensures_of_session hsession content?).mono
  rintro outcome content?' ⟨s, hsees, hends⟩
  cases hends with
  | refused e =>
    cases hsees
    exact .kept
  | @failed e v hturn hfault =>
    obtain ⟨found?, written?⟩ := v
    obtain ⟨rfl, rfl⟩ := hsees
    cases hturn with
    | nothing => exact .kept
    | state hdecode hwrites =>
      cases hwrites with
      | mutate hwrites => exact .wrote hdecode hwrites
  | wrote ho hdecode hwrites =>
    cases ho
    obtain ⟨rfl, rfl⟩ := hsees
    exact .wrote hdecode hwrites
  | skipped ho =>
    cases ho
    cases hsees
    exact .skipped rfl
  | read hreads =>
    cases hreads
    contradiction
  | probed ho => cases ho

theorem probe_ensures (l : Ledger) :
    Ensures (server l.path) l.probe content? fun _ content?' =>
      Restated l.path content? content?' := by
  apply (ensures_of_session (Session.probe_ensures l) content?).mono
  rintro outcome content?' ⟨s, hsees, hends⟩
  generalize houtcome : outcome.map (fun _ => l) = ended at hends
  cases hends with
  | refused e => exact .inl hsees
  | @failed e v hturn hfault =>
    obtain ⟨found?, written?⟩ := v
    obtain ⟨rfl, rfl⟩ := hsees
    cases hturn with
    | nothing => exact .inl rfl
    | state hdecode hwrites =>
      cases hwrites
      exact .inr ⟨_, hdecode, rfl⟩
  | probed ho hdecode =>
    obtain ⟨rfl, rfl⟩ := hsees
    exact .inr ⟨_, hdecode, rfl⟩
  | skipped ho => cases ho
  | read hreads => cases hreads
  | wrote ho => cases ho

end SchemaMigration.Ledger

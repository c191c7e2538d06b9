import SchemaMigration.Proofs.Ledger.Operations
import SchemaMigration.Proofs.Observation

/-!
This module contains what the operations on a ledger tell the audit trail. Where a write of the
ledger file that fails has no effect, an operation tells of the entries that it has added or removed
if it has changed the file, and of nothing otherwise.
-/

namespace SchemaMigration.Ledger

open Program (Ensures Exec Within)

def toldRecorded (batch : Int) (file : Text) : Text :=
  ascii "filename=" ++ file ++ ascii " batch=" ++ Text.ofInt batch

def toldRemoved (file : Text) : Text := ascii "filename=" ++ file

def recordedRecord (batch : Int) (file : Text) : Log.Record :=
  ⟨.info, Log.actionMark (ascii "ledger.record") ++ toldRecorded batch file⟩

def removedRecord (file : Text) : Log.Record :=
  ⟨.info, Log.actionMark (ascii "ledger.remove") ++ toldRemoved file⟩

theorem recordedRecord_eq (batch : Int) (file : Text) :
    Log.Entry.record (.audit (ascii "ledger.record") [.text "filename" file, .int "batch" batch]) =
      recordedRecord batch file := by
  have hfile : ascii "filename=" = ascii "filename" ++ [byte '='] := by decide
  have hbatch : ascii " batch=" = byte ' ' :: ascii "batch" ++ [byte '='] := by decide
  rw [Log.Entry.record_audit, recordedRecord, toldRecorded, hfile, hbatch]
  simp [Text.join, Log.Field.render, Log.Field.text, Log.Field.int]

theorem removedRecord_eq (file : Text) :
    Log.Entry.record (.audit (ascii "ledger.remove") [.text "filename" file]) =
      removedRecord file := by
  have hfile : ascii "filename=" = ascii "filename" ++ [byte '='] := by decide
  rw [Log.Entry.record_audit, removedRecord, toldRemoved, hfile]
  simp [Text.join, Log.Field.render, Log.Field.text]

structure Sheet where
  content? : Option Text
  records : List Log.Record

namespace Sheet

def note (s : Sheet) (records : List Log.Record) : Sheet :=
  { s with records := s.records ++ Log.trail records }

def write (s : Sheet) (content : Text) : Sheet := { s with content? := some content }

/-- The requests of ledger operations. A write that is to last has no effect if it fails. -/
def server (lasting : Prop) : Server Access Sheet where
  Admits _ _ := True
  Serves
    | .read, s, reply, s' => (∀ found?, reply = .ok found? → found? = s.content?) ∧ s' = s
    | .replace content, s, .ok _, s' => s' = s.write content
    | .replace content, s, .error _, s' => s' = s ∨ ¬ lasting ∧ s' = s.write content
    | .log entry, s, _, s' => ∃ records, entry.MayWrite records ∧ s' = s.note records
    | _, s, _, s' => s' = s

variable {α β : Type} {lasting : Prop} {s : Sheet} {path : Path}
  {Q : Except Failure α → Sheet → Prop}

theorem note_nil (s : Sheet) : s.note [] = s := by
  simp [note]

theorem note_note (s : Sheet) (older newer : List Log.Record) :
    (s.note older).note newer = s.note (older ++ newer) := by
  simp [note]

theorem take_bind {l : Ledger} {state : State} {f : Ledger → Program Access Failure α}
    (hf : Ensures (server lasting) (f { l with state }) s Q) :
    Ensures (server lasting) (l.take state >>= f) s Q := by
  refine ⟨trivial, ?_⟩
  rintro _ _ rfl
  exact hf

theorem audit_bind {action : Text} {fields : List Log.Field} {f : Unit → Program Access Failure α}
    (hf : Ensures (server lasting) (f ()) (s.note [Log.Entry.record (.audit action fields)]) Q) :
    Ensures (server lasting) (HasLog.log (.audit action fields) >>= f) s Q := by
  refine ⟨trivial, ?_⟩
  rintro _ _ ⟨_, rfl | ⟨⟨⟩, _⟩, rfl⟩
  exact hf

theorem message_bind {level : Log.Level} {text : Text} {fields : List Log.Field}
    {f : Unit → Program Access Failure α} (haside : Log.Apart Log.auditMark text)
    (hf : Ensures (server lasting) (f ()) s Q) :
    Ensures (server lasting) (HasLog.log (.message level text fields) >>= f) s Q := by
  refine ⟨trivial, ?_⟩
  rintro _ _ ⟨records, hwrite, rfl⟩
  rw [note, Log.trail_of_mayWrite hwrite (Log.Entry.isAside_message haside), List.append_nil]
  exact hf

theorem forM_audit_bind (action : Text) (fields : β → List Log.Field) (items : List β)
    {f : PUnit → Program Access Failure α}
    (hf : Ensures (server lasting) (f ⟨⟩)
      (s.note (items.map fun item => Log.Entry.record (.audit action (fields item)))) Q) :
    Ensures (server lasting)
      (items.forM (fun item => HasLog.log (.audit action (fields item))) >>= f) s Q := by
  induction items generalizing s with
  | nil =>
    rw [List.map_nil, note_nil] at hf
    exact hf
  | cons item items ih =>
    apply audit_bind
    apply ih
    rw [note_note]
    exact hf

theorem underLease_ensures {operation : Program Access Failure α}
    (h : Ensures (server lasting) operation s Q) (herror : ∀ e, Q (.error e) s) :
    Ensures (server lasting) (underLease operation) s Q := by
  refine ⟨trivial, ?_⟩
  rintro reply _ rfl
  cases reply with
  | error e => exact herror e
  | ok _ =>
    change Ensures _ (operation.andFinally _) _ _
    rw [Program.ensures_andFinally]
    apply h.mono
    intro outcome s' hQ
    refine ⟨trivial, ?_⟩
    rintro _ _ rfl
    exact hQ

theorem readState_bind {f : State → Program Access Failure α}
    (h : ∀ state, decodeFile path s.content? = .ok state →
      Ensures (server lasting) (f state) s Q)
    (herror : ∀ e, Q (.error e) s) :
    Ensures (server lasting) (readState path >>= f) s Q := by
  rw [Program.ensures_bind]
  refine ⟨trivial, ?_⟩
  rintro reply s ⟨hread, rfl⟩
  cases reply with
  | error e => exact herror e
  | ok found? =>
    obtain rfl := hread found? rfl
    change Ensures _ (Program.ofExcept _) _ _
    rw [Program.ensures_ofExcept]
    cases hdecode : decodeFile path s.content? with
    | error e => exact herror e
    | ok state => exact h state hdecode

theorem writeState_bind {new : State} {f : Unit → Program Access Failure α}
    (h : new.Utf8 → Ensures (server lasting) (f ()) (s.write new.encode) Q)
    (herror : ∀ e, Q (.error e) s)
    (hwritten : ∀ e, ¬ lasting → Q (.error e) (s.write new.encode)) :
    Ensures (server lasting) (writeState new >>= f) s Q := by
  rw [Program.ensures_bind]
  unfold writeState
  rw [Program.ensures_bind, Program.ensures_ofExcept]
  cases hserialize : new.serialize with
  | error e => exact herror e
  | ok content =>
    obtain ⟨hutf8, rfl⟩ := State.serialize_eq_ok_iff.mp hserialize
    refine ⟨trivial, ?_⟩
    intro reply s' hserves
    change Ensures _ (Program.ofExcept reply) _ _
    rw [Program.ensures_ofExcept]
    cases reply with
    | ok _ =>
      cases hserves
      exact h hutf8
    | error e =>
      obtain rfl | ⟨hnot, rfl⟩ := hserves
      . exact herror e
      . exact hwritten e hnot

inductive Amended (path : Path) (m : Mutation) (tells : State → State → List Log.Record)
    (s : Sheet) : Except Failure Ledger → Sheet → Prop
  | failed (e : Failure) : Amended path m tells s (.error e) s
  | skipped (l : Ledger) (hm : m = .remove []) : Amended path m tells s (.ok l) s
  | wrote {l : Ledger} {old : State} (hdecode : decodeFile path s.content? = .ok old)
    (hwrites : m.Writes old l.state) :
    Amended path m tells s (.ok l) ((s.write l.state.encode).note (tells old l.state))

def tellsRecord (files : List MigrationFile) (_ new : State) : List Log.Record :=
  files.map (recordedRecord new.currentBatch ·.name)

def tellsRemove (files : List Text) (old _ : State) : List Log.Record :=
  ((old.entries.filter (files.contains ·.file)).map (·.file)).map removedRecord

theorem record_ensures (l : Ledger) (files : List MigrationFile) (s : Sheet) :
    Ensures (server True) (l.record files) s
      (Amended l.path (.record files) (tellsRecord files) s) := by
  unfold record
  split
  . exact .failed _
  next hempty =>
  refine underLease_ensures ?_ fun e => .failed e
  refine readState_bind (fun old hdecode => ?_) fun e => .failed e
  refine ⟨trivial, ?_⟩
  rintro now _ rfl
  dsimp only
  split
  . exact .failed _
  . next hnew =>
    refine writeState_bind (fun hutf8 => ?_) (fun e => .failed e) fun _ hnot => absurd trivial hnot
    apply take_bind
    apply message_bind (by decide)
    apply forM_audit_bind
    simp only [recordedRecord_eq]
    exact .wrote hdecode (Mutation.writes_record hempty hnew hutf8)

theorem remove_ensures (l : Ledger) (files : List Text) (s : Sheet) :
    Ensures (server True) (l.remove files) s
      (Amended l.path (.remove files) (tellsRemove files) s) := by
  unfold remove
  split
  . next hempty =>
    rw [List.isEmpty_iff] at hempty
    subst hempty
    exact .skipped l rfl
  next hempty =>
  refine underLease_ensures ?_ fun e => .failed e
  refine readState_bind (fun old hdecode => ?_) fun e => .failed e
  have hwrites : Mutation.Writes (.remove files) old (old.without (files.contains ·.file)) :=
    .remove (by simpa using hempty)
  refine writeState_bind (fun _ => ?_) (fun e => .failed e) fun _ hnot => absurd trivial hnot
  apply take_bind
  apply message_bind (by decide)
  apply forM_audit_bind
  simp only [removedRecord_eq]
  exact .wrote hdecode hwrites

/-- To read the ledger is not told. -/
theorem load_ensures (l : Ledger) (s : Sheet) :
    Ensures (server lasting) l.load s fun _ s' => s'.records = s.records := by
  unfold load
  refine underLease_ensures ?_ fun _ => rfl
  refine readState_bind (fun state _ => ?_) fun _ => rfl
  exact take_bind (message_bind (by decide) rfl)

theorem refresh_ensures (path : Path) (s : Sheet) :
    Ensures (server lasting) (refresh path) s fun _ s' => s'.records = s.records := by
  unfold refresh
  refine readState_bind (fun state _ => ?_) fun _ => rfl
  rw [Program.ensures_bind, Program.ensures_ofExcept]
  cases state.serialize with
  | error e => rfl
  | ok expected => ?_
  refine writeState_bind (fun _ => ?_) (fun _ => rfl) fun _ _ => rfl
  refine ⟨trivial, ?_⟩
  rintro reply s' ⟨_, rfl⟩
  match reply with
  | .error e => rfl
  | .ok none => rfl
  | .ok (some content) =>
    change Ensures _ (ite _ _ _) _ _
    split
    . rfl
    . rw [Program.ensures_bind, Program.ensures_ofExcept]
      cases decodeFile path (some content) with
      | error e => rfl
      | ok state => rfl

/-- To make sure that the ledger can be written is not told. -/
theorem probe_ensures (l : Ledger) (s : Sheet) :
    Ensures (server lasting) l.probe s fun _ s' => s'.records = s.records := by
  unfold probe
  refine underLease_ensures ?_ fun _ => rfl
  rw [Program.ensures_bind, Program.ensures_attempt]
  apply (refresh_ensures l.path s).mono
  intro outcome s' hrecords
  cases outcome with
  | error e => exact hrecords
  | ok _ => exact message_bind (by decide) hrecords

end Sheet

structure Scroll where
  files : Files
  records : List Log.Record

namespace Scroll

def logged : World.Request → List Log.Entry
  | .log entry => [entry]
  | _ => []

/--
A world in which others may change all files but a ledger file and the temporary files beside it,
and in which the log is written through a filter. If the writes of files are to last, directories
can be forced to disk.
-/
def server (path : Path) (filter : Log.Filter) (lasting : Prop) : Server World Scroll where
  Admits _ _ := True
  Serves r s reply s' :=
    (World.server (File.Owns path)).Serves r s.files reply s'.files ∧
      s'.records = s.records ++ (logged r).filterMap filter.record? ∧
      (lasting → File.Lasts r reply)

def sheet (path : Path) (s : Scroll) : Sheet := ⟨s.files path, Log.trail s.records⟩

/-- The requests that log nothing about migrations or the ledger. -/
def Discreet (r : World.Request) : Prop := ∀ entry ∈ logged r, entry.isAside = true

variable {α : Type} {path : Path} {filter : Log.Filter} {lasting : Prop} {s s' : Scroll}
  {p : Program World Failure α} {outcome : Except Failure α}

theorem exec_files (h : Exec (server path filter lasting) p s outcome s') :
    Exec (World.server (File.Owns path)) p s.files outcome s'.files := by
  apply h.map Scroll.files
  intro r t reply t' hserves
  exact hserves.1

theorem exec_handling (h : Exec (server path filter lasting) p s outcome s') :
    Exec (File.handling lasting) p () outcome () := by
  apply h.map fun _ => ()
  intro r t reply t' hserves
  exact hserves.2.2

theorem trail_of_discreet (hp : Within Discreet p)
    (h : Exec (server path filter lasting) p s outcome s') :
    Log.trail s'.records = Log.trail s.records := by
  induction h with
  | done a s => rfl
  | fail e s => rfl
  | @ask r next reply outcome s₁ s₂ s₃ hserves _ ih =>
    rw [ih (hp.2 reply () trivial), hserves.2.1, Log.trail_append, Log.trail_of_aside hp.1,
      List.append_nil]

theorem discreet_of_aside {entry : Log.Entry} (h : entry.isAside = true) :
    Discreet (.log entry) := by
  rintro _ (_ | ⟨_, ⟨⟩⟩)
  exact h

theorem discreet_of_makes {lock : Path} {r : World.Request} (h : Lease.Makes lock r) :
    Discreet r := by
  cases r with
  | log entry => exact discreet_of_aside h
  | _ => exact nofun

theorem discreet_of_handles {r : World.Request} (h : File.Handles r) : Discreet r := by
  cases r with
  | log => cases h
  | _ => exact nofun

theorem sheet_eq (hcontent : s'.files path = s.files path)
    (hrecords : Log.trail s'.records = Log.trail s.records) : s'.sheet path = s.sheet path := by
  rw [sheet, hcontent, hrecords]
  rfl

theorem trail_serve {r : Request} {lease : Lease} {outcome : Except Failure (Reply r × Lease)}
    (h : Exec (server path filter lasting) (serve path r lease) s outcome s')
    (hr : ∀ entry, r ≠ .log entry) : Log.trail s'.records = Log.trail s.records := by
  refine trail_of_discreet (serve_within (fun _ => discreet_of_makes)
    (fun _ => discreet_of_handles) nofun nofun fun entry heq => ?_) h
  exact absurd heq (hr entry)

/-- A write that is to last and fails has no effect. -/
theorem replace_settled {content : Text} {lease lease' : Lease} {reply : Except Failure Unit}
    (h : Exec (server path filter lasting) (serve path (.replace content) lease) s
      (.ok (reply, lease')) s') : File.Settled path lasting reply := by
  have hensures : Ensures (File.handling lasting) (serve path (.replace content) lease) ()
      fun outcome _ => ∀ reply lease', outcome = .ok (reply, lease') →
        File.Settled path lasting reply := by
    unfold serve
    rw [Program.ensures_bind, Program.ensures_attempt]
    apply (File.writeAtomic_handles path content).mono
    rintro outcome _ hsettled _ _ ⟨⟩
    exact hsettled
  exact hensures.of_exec (exec_handling h) reply lease' rfl

/-- What a ledger operation does to the ledger file and to the log. -/
theorem serve_sheet (hfilter : ∀ action fields,
      filter.record? (.audit action fields) = some (Log.Entry.audit action fields).record)
    {r : Request} {lease : Lease} (hlease : lease.path = Lease.lockPath path)
    {outcome : Except Failure (Reply r × Lease)}
    (h : Exec (server path filter lasting) (serve path r lease) s outcome s') :
    ∃ reply lease', outcome = .ok (reply, lease') ∧ lease'.path = Lease.lockPath path ∧
      (Sheet.server lasting).Serves r (s.sheet path) reply (s'.sheet path) := by
  obtain ⟨reply, lease', rfl, hlease', hserves⟩ :=
    (serve_ensures r lease s.files hlease).of_exec (exec_files h)
  refine ⟨reply, lease', rfl, hlease', ?_⟩
  cases r with
  | acquire | release | keep | now =>
    exact sheet_eq hserves (trail_serve h nofun)
  | read =>
    exact ⟨hserves.1, sheet_eq hserves.2 (trail_serve h nofun)⟩
  | replace content =>
    have hrecords := trail_serve h nofun
    have hwritten : s'.files path = some content →
        s'.sheet path = (s.sheet path).write content := by
      intro hcontent
      rw [sheet, hcontent, hrecords]
      rfl
    cases reply with
    | ok _ => exact hwritten hserves
    | error e =>
      cases hserves with
      | inl hkept => exact .inl (sheet_eq hkept hrecords)
      | inr hreplaced =>
        refine .inr ⟨fun hlasting => ?_, hwritten hreplaced.2⟩
        exact replace_settled h e rfl hlasting hreplaced.1
  | log entry =>
    cases h with
    | ask hlogged hdone =>
      cases hdone
      refine ⟨_, Log.Filter.mayWrite hfilter entry, ?_⟩
      change Sheet.mk _ _ = Sheet.mk _ _
      rw [hserves, hlogged.2.1, Log.trail_append]
      rfl

/-- A ledger operation on the file system, in terms of the ledger file and the log. -/
theorem onDisk_sheet (hfilter : ∀ action fields,
      filter.record? (.audit action fields) = some (Log.Entry.audit action fields).record)
    {operation : Program Access Failure α} {Q : Except Failure α → Sheet → Prop}
    (h : Ensures (Sheet.server lasting) operation (s.sheet path) Q) (options : Lease.Options) :
    Ensures (server path filter lasting) (onDisk path options operation) s fun outcome s' =>
      Q outcome (s'.sheet path) := by
  have hserve : ∀ (r : Request) (lease : Lease) (s : Scroll), lease.path = Lease.lockPath path →
      Ensures (server path filter lasting) (serve path r lease) s fun outcome s' =>
        ∃ reply lease', outcome = .ok (reply, lease') ∧ lease'.path = Lease.lockPath path ∧
          (Sheet.server lasting).Serves r (s.sheet path) reply (s'.sheet path) := by
    intro r lease s hlease
    apply Ensures.of_forall_exec fun _ _ => trivial
    exact fun outcome s' => serve_sheet hfilter hlease
  exact Ensures.serveBy (sheet path) (·.path = Lease.lockPath path) hserve h rfl

end Scroll

end SchemaMigration.Ledger

import SchemaMigration.Proofs.Ledger.Encoding
import SchemaMigration.Proofs.Program

/-!
This module contains the course that an operation on a ledger takes: it holds the lease from before
it reads the ledger file until behind its last use of the file, and it writes at most once, namely
the state that it makes of the state it has read.
-/

namespace SchemaMigration.Ledger

open Program (Ensures)

inductive Mutation where
  | record (files : List MigrationFile)
  | rollBack
  | remove (files : List Text)
  deriving DecidableEq

inductive Operation where
  | load
  | probe
  | mutate (m : Mutation)
  deriving DecidableEq

namespace Mutation

def program (l : Ledger) : Mutation → Program Access Failure Ledger
  | record files => l.record files
  | rollBack => do
    let (_, l) ← l.rollBack
    return l
  | remove files => l.remove files

inductive Writes : Mutation → State → State → Prop
  | record {old : State} {files : List MigrationFile} (appliedAt : Text) (hne : files ≠ [])
    (hfresh : Fresh id old.files (files.map (·.name)))
    (hutf8 : (old.withBatch files appliedAt).Utf8) :
    Writes (.record files) old (old.withBatch files appliedAt)
  | rollBack {old : State} (hbatch : old.currentBatch ≠ 0) :
    Writes .rollBack old (old.without (·.batch == old.currentBatch))
  | remove {old : State} {files : List Text} (hne : files ≠ []) :
    Writes (.remove files) old (old.without (files.contains ·.file))

end Mutation

namespace Operation

def program (l : Ledger) : Operation → Program Access Failure Ledger
  | load => l.load
  | probe => do
    l.probe
    return l
  | mutate m => m.program l

/-- The state that an operation writes. A probe writes what is there. -/
inductive Writes : Operation → State → State → Prop
  | probe (s : State) : Writes .probe s s
  | mutate {m : Mutation} {old new : State} (h : m.Writes old new) : Writes (.mutate m) old new

inductive Reads : Operation → State → Prop
  | load (s : State) : Reads .load s
  | rollBack {s : State} (hbatch : s.currentBatch = 0) : Reads (.mutate .rollBack) s

end Operation

def settle (l : Ledger) : Except Failure Ledger → Ledger
  | .ok l' => l'
  | .error _ => l

/-- What an operation found in the ledger file when it got the lease, and what it wrote since. -/
structure Visit where
  start? : Option Text
  written? : Option Text

def Visit.content? (v : Visit) : Option Text := v.written?.or v.start?

inductive Session where
  | outside
  | inside (v : Visit)
  | left (v : Visit)

/-- What an operation wrote is what it makes of the state that it found. -/
inductive Turn (path : Path) (o : Operation) (start? : Option Text) : Option Text → Prop
  | nothing : Turn path o start? none
  | state {old new : State} (hdecode : decodeFile path start? = .ok old)
    (hwrites : o.Writes old new) : Turn path o start? (some new.encode)

theorem firstRepeated?_eq_none {seen names : List Text} (h : firstRepeated? seen names = none) :
    Fresh id seen names := by
  induction names generalizing seen with
  | nil => exact fresh_nil
  | cons name rest ih =>
    unfold firstRepeated? at h
    split at h
    . contradiction
    . next hnew => exact fresh_cons.mpr ⟨by simpa using hnew, ih h⟩

theorem Mutation.writes_record {old : State} {files : List MigrationFile}
    (hempty : ¬ files.isEmpty = true)
    (hnew : firstRepeated? old.files.reverse (files.map (·.name)) = none) {appliedAt : Text}
    (hutf8 : (old.withBatch files appliedAt).Utf8) :
    Writes (.record files) old (old.withBatch files appliedAt) := by
  apply Writes.record appliedAt _ _ hutf8
  . simpa using hempty
  . have hfresh := firstRepeated?_eq_none hnew
    refine ⟨fun name hname => ?_, hfresh.distinct⟩
    simpa using hfresh.unseen name hname

/-- A system that takes entries of the log and does nothing else about them. -/
structure Quiet {S : Type} (server : Server Access S) : Prop where
  admits (entry : Log.Entry) (s : S) : server.Admits (.log entry) s
  same {entry : Log.Entry} {s s' : S} : server.Serves (.log entry) s () s' → s' = s

/-- A quiet system that does not heed what a ledger has in memory. -/
structure Heedless {S : Type} (server : Server Access S) : Prop extends Quiet server where
  admits_keep (state : State) (s : S) : server.Admits (.keep state) s
  serves_keep {state : State} {s s' : S} : server.Serves (.keep state) s () s' ↔ s' = s

section Log

variable {S α β : Type} {server : Server Access S} {s : S} {Q : Except Failure α → S → Prop}

theorem Quiet.log_bind (h : Quiet server) (entry : Log.Entry)
    {f : Unit → Program Access Failure α} (hf : Ensures server (f ()) s Q) :
    Ensures server (HasLog.log entry >>= f) s Q := by
  refine ⟨h.admits entry s, ?_⟩
  intro _ s' hserves
  cases h.same hserves
  exact hf

theorem Quiet.forM_log_bind (h : Quiet server) (entry : β → Log.Entry) (items : List β)
    {f : PUnit → Program Access Failure α} (hf : Ensures server (f ⟨⟩) s Q) :
    Ensures server (items.forM (fun item => HasLog.log (entry item)) >>= f) s Q := by
  induction items with
  | nil => exact hf
  | cons item items ih => exact h.log_bind (entry item) ih

theorem Heedless.take_bind (h : Heedless server) (l : Ledger) (state : State)
    {f : Ledger → Program Access Failure α} (hf : Ensures server (f { l with state }) s Q) :
    Ensures server (l.take state >>= f) s Q := by
  refine ⟨h.admits_keep state s, ?_⟩
  intro _ s' hserves
  cases h.serves_keep.mp hserves
  exact hf

end Log

namespace Session

/--
The requests that an operation may make in the course of a session. A replacement that fails may
have taken place, if the failure is one of `faults`.
-/
def server (path : Path) (o : Operation) (faults : Failure → Prop) : Server Access Session where
  Admits
    | .acquire, s => s = .outside
    | .release, s | .read, s => ∃ v, s = .inside v
    | .replace content, s =>
      ∃ start?, s = .inside ⟨start?, none⟩ ∧ Turn path o start? (some content)
    | _, _ => True
  Serves
    | .acquire, _, .ok _, s' => ∃ start?, s' = .inside ⟨start?, none⟩
    | .release, .inside v, _, s' => s' = .left v
    | .read, .inside v, reply, s' =>
      (∀ found?, reply = .ok found? → found? = v.content?) ∧ s' = .inside v
    | .replace content, .inside v, .ok _, s' => s' = .inside { v with written? := some content }
    | .replace content, .inside v, .error e, s' =>
      s' = .inside v ∨ (faults e ∧ s' = .inside { v with written? := some content })
    | _, s, _, s' => s' = s

variable {path : Path} {o : Operation} {faults : Failure → Prop} {α : Type} {s : Session}
  {start? : Option Text} {v : Visit}

theorem ensures_ask_bind (r : Request) (f : Reply r → Program Access Failure α)
    (Q : Except Failure α → Session → Prop) :
    Ensures (server path o faults) (ask r >>= f) s Q ↔
      (server path o faults).Admits r s ∧
        ∀ reply s', (server path o faults).Serves r s reply s' →
          Ensures (server path o faults) (f reply) s' Q := Iff.rfl

theorem heedless : Heedless (server path o faults) where
  admits _ _ := trivial
  same h := h
  admits_keep _ _ := trivial
  serves_keep := Iff.rfl

theorem underLease_ensures {operation : Program Access Failure α}
    {Q : Except Failure α → Session → Prop}
    (h : ∀ start?, Ensures (server path o faults) operation (.inside ⟨start?, none⟩)
      fun outcome s => ∃ v, s = .inside v ∧ Q outcome (.left v))
    (herror : ∀ e, Q (.error e) .outside) :
    Ensures (server path o faults) (underLease operation) .outside Q := by
  unfold underLease
  rw [ensures_ask_bind]
  refine ⟨rfl, ?_⟩
  intro reply s' hserves
  cases reply with
  | error e =>
    cases hserves
    exact herror e
  | ok _ =>
    obtain ⟨start?, rfl⟩ := hserves
    dsimp only
    rw [Program.ensures_andFinally]
    apply (h start?).mono
    rintro outcome _ ⟨v, rfl, hQ⟩
    refine ⟨⟨v, rfl⟩, ?_⟩
    rintro _ _ rfl
    exact hQ

theorem readState_ensures {f : State → Program Access Failure α}
    {Q : Except Failure α → Session → Prop}
    (h : ∀ state, decodeFile path v.content? = .ok state →
      Ensures (server path o faults) (f state) (.inside v) Q)
    (herror : ∀ e, Q (.error e) (.inside v)) :
    Ensures (server path o faults) (readState path >>= f) (.inside v) Q := by
  rw [Program.ensures_bind]
  unfold readState
  rw [ensures_ask_bind]
  refine ⟨⟨v, rfl⟩, ?_⟩
  rintro reply _ ⟨hread, rfl⟩
  cases reply with
  | error e => exact herror e
  | ok found? =>
    obtain rfl := hread found? rfl
    dsimp only
    rw [Program.ensures_ofExcept]
    cases hdecode : decodeFile path v.content? with
    | error e => exact herror e
    | ok state => exact h state hdecode

theorem writeState_ensures {old new : State} {f : Unit → Program Access Failure α}
    {Q : Except Failure α → Session → Prop} (hdecode : decodeFile path start? = .ok old)
    (hwrites : new.Utf8 → o.Writes old new)
    (h : new.Utf8 → Ensures (server path o faults) (f ()) (.inside ⟨start?, some new.encode⟩) Q)
    (herror : ∀ e, Q (.error e) (.inside ⟨start?, none⟩))
    (hfault : ∀ e, faults e → new.Utf8 → Q (.error e) (.inside ⟨start?, some new.encode⟩)) :
    Ensures (server path o faults) (writeState new >>= f) (.inside ⟨start?, none⟩) Q := by
  rw [Program.ensures_bind]
  unfold writeState
  rw [Program.ensures_bind, Program.ensures_ofExcept]
  cases hserialize : new.serialize with
  | error e => exact herror e
  | ok content =>
    obtain ⟨hutf8, rfl⟩ := State.serialize_eq_ok_iff.mp hserialize
    change Ensures _ (ask (.replace new.encode) >>= _) _ _
    rw [ensures_ask_bind]
    refine ⟨⟨start?, rfl, .state hdecode (hwrites hutf8)⟩, ?_⟩
    intro reply s' hserves
    rw [Program.ensures_ofExcept]
    cases reply with
    | ok _ =>
      cases hserves
      exact h hutf8
    | error e =>
      cases hserves with
      | inl hkept =>
        cases hkept
        exact herror e
      | inr hreplaced =>
        obtain ⟨he, rfl⟩ := hreplaced
        exact hfault e he hutf8

inductive Ends (path : Path) (o : Operation) (faults : Failure → Prop) (l : Ledger) :
    Except Failure Ledger → Session → Prop
  | refused (e : Failure) : Ends path o faults l (.error e) .outside
  | failed {e : Failure} {v : Visit} (hturn : Turn path o v.start? v.written?)
    (hfault : ∀ m, o = .mutate m → v.written? ≠ none → faults e) :
    Ends path o faults l (.error e) (.left v)
  | skipped (ho : o = .mutate (.remove [])) : Ends path o faults l (.ok l) .outside
  | probed {start? : Option Text} {s : State} (ho : o = .probe)
    (hdecode : decodeFile path start? = .ok s) :
    Ends path o faults l (.ok l) (.left ⟨start?, some s.encode⟩)
  | read {start? : Option Text} {s : State} (hreads : o.Reads s)
    (hdecode : decodeFile path start? = .ok s) :
    Ends path o faults l (.ok { l with state := s }) (.left ⟨start?, none⟩)
  | wrote {m : Mutation} {start? : Option Text} {old new : State} (ho : o = .mutate m)
    (hdecode : decodeFile path start? = .ok old) (hwrites : m.Writes old new) :
    Ends path o faults l (.ok { l with state := new }) (.left ⟨start?, some new.encode⟩)

variable {l : Ledger}

theorem Ends.failed_nothing (e : Failure) (start? : Option Text) :
    Ends path o faults l (.error e) (.left ⟨start?, none⟩) :=
  .failed .nothing fun _ _ hne => absurd rfl hne

theorem Ends.failed_state {m : Mutation} {old new : State} {e : Failure}
    (hdecode : decodeFile path start? = .ok old) (hwrites : m.Writes old new) (he : faults e) :
    Ends path (.mutate m) faults l (.error e) (.left ⟨start?, some new.encode⟩) :=
  .failed (.state hdecode (.mutate hwrites)) fun _ _ _ => he

theorem load_ensures (l : Ledger) :
    Ensures (server l.path .load faults) l.load .outside (Ends l.path .load faults l) := by
  unfold load
  apply underLease_ensures _ fun e => .refused e
  intro start?
  apply readState_ensures
  . intro state hdecode
    apply heedless.take_bind
    apply heedless.log_bind
    exact ⟨_, rfl, .read (.load state) hdecode⟩
  . intro e
    exact ⟨_, rfl, .failed_nothing e start?⟩

theorem record_ensures (l : Ledger) (files : List MigrationFile) :
    Ensures (server l.path (.mutate (.record files)) faults) (l.record files) .outside
      (Ends l.path (.mutate (.record files)) faults l) := by
  unfold record
  split
  . exact .refused _
  next hempty =>
  apply underLease_ensures _ fun e => .refused e
  intro start?
  apply readState_ensures _ fun e => ⟨_, rfl, .failed_nothing e start?⟩
  intro old hdecode
  rw [ensures_ask_bind]
  refine ⟨trivial, ?_⟩
  rintro now _ rfl
  split
  . exact ⟨_, rfl, .failed_nothing _ start?⟩
  . next hnew =>
    have hwrites (hutf8 : (old.withBatch files now.iso8601).Utf8) :=
      Mutation.writes_record hempty hnew hutf8
    apply writeState_ensures hdecode fun hutf8 => .mutate (hwrites hutf8)
    . intro hutf8
      apply heedless.take_bind
      apply heedless.log_bind
      apply heedless.forM_log_bind
      exact ⟨_, rfl, .wrote rfl hdecode (hwrites hutf8)⟩
    . intro e
      exact ⟨_, rfl, .failed_nothing e start?⟩
    . intro e he hutf8
      exact ⟨_, rfl, .failed_state hdecode (hwrites hutf8) he⟩

theorem rollBack_ensures (l : Ledger) :
    Ensures (server l.path (.mutate .rollBack) faults) l.rollBack .outside fun outcome s =>
      Ends l.path (.mutate .rollBack) faults l (outcome.map (·.2)) s ∧
        ∀ result, outcome = .ok result → ∃ v old, s = .left v ∧
          decodeFile l.path v.start? = .ok old ∧
            result.1 = (old.lastBatch.map (·.file)).reverse := by
  unfold rollBack
  apply underLease_ensures _ fun e => ⟨.refused e, nofun⟩
  intro start?
  apply readState_ensures _ fun e => ⟨_, rfl, .failed_nothing e start?, nofun⟩
  intro old hdecode
  dsimp only
  split
  . next hbatch =>
    apply heedless.take_bind
    refine ⟨_, rfl, .read (.rollBack hbatch) hdecode, ?_⟩
    rintro _ ⟨⟩
    refine ⟨_, old, rfl, hdecode, ?_⟩
    rw [State.lastBatch, if_pos hbatch]
    rfl
  . next hbatch =>
    have hwrites := Mutation.Writes.rollBack hbatch
    apply writeState_ensures hdecode fun _ => .mutate hwrites
    . intro _
      apply heedless.take_bind
      apply heedless.log_bind
      apply heedless.forM_log_bind
      refine ⟨_, rfl, .wrote rfl hdecode hwrites, ?_⟩
      rintro _ ⟨⟩
      refine ⟨_, old, rfl, hdecode, ?_⟩
      rw [State.lastBatch, if_neg hbatch, List.filter_reverse, List.map_reverse,
        List.reverse_reverse]
    . intro e
      exact ⟨_, rfl, .failed_nothing e start?, nofun⟩
    . intro e he _
      exact ⟨_, rfl, .failed_state hdecode hwrites he, nofun⟩

theorem remove_ensures (l : Ledger) (files : List Text) :
    Ensures (server l.path (.mutate (.remove files)) faults) (l.remove files) .outside
      (Ends l.path (.mutate (.remove files)) faults l) := by
  unfold remove
  split
  . next hempty =>
    rw [List.isEmpty_iff] at hempty
    exact .skipped (by rw [hempty])
  next hempty =>
  apply underLease_ensures _ fun e => .refused e
  intro start?
  apply readState_ensures _ fun e => ⟨_, rfl, .failed_nothing e start?⟩
  intro old hdecode
  have hwrites : Mutation.Writes (.remove files) old (old.without (files.contains ·.file)) := by
    apply Mutation.Writes.remove
    simpa using hempty
  apply writeState_ensures hdecode fun _ => .mutate hwrites
  . intro _
    apply heedless.take_bind
    apply heedless.log_bind
    apply heedless.forM_log_bind
    exact ⟨_, rfl, .wrote rfl hdecode hwrites⟩
  . intro e
    exact ⟨_, rfl, .failed_nothing e start?⟩
  . intro e he _
    exact ⟨_, rfl, .failed_state hdecode hwrites he⟩

theorem refresh_ensures (path : Path) (start? : Option Text) :
    Ensures (server path .probe faults) (refresh path) (.inside ⟨start?, none⟩) fun outcome s =>
      ∃ v, s = .inside v ∧ Turn path .probe v.start? v.written? ∧
        (outcome = .ok () → ∃ state, decodeFile path v.start? = .ok state ∧
          v.written? = some state.encode) := by
  unfold refresh
  apply readState_ensures _ fun e => ⟨_, rfl, .nothing, nofun⟩
  intro state hdecode
  have hturn : Turn path .probe start? (some state.encode) := .state hdecode (.probe state)
  have hfailed : ∀ e : Failure, ∃ v, Session.inside ⟨start?, some state.encode⟩ = .inside v ∧
      Turn path .probe v.start? v.written? ∧
        (Except.error e = .ok () → ∃ state, decodeFile path v.start? = .ok state ∧
          v.written? = some state.encode) :=
    fun e => ⟨_, rfl, hturn, nofun⟩
  rw [State.serialize_eq (utf8_of_decodeFile hdecode)]
  change Ensures _ (writeState state >>= _) _ _
  apply writeState_ensures hdecode (fun _ => .probe state) _ (fun e => ⟨_, rfl, .nothing, nofun⟩)
    fun e _ _ => hfailed e
  intro _
  rw [ensures_ask_bind]
  refine ⟨⟨_, rfl⟩, ?_⟩
  rintro reply _ ⟨_, rfl⟩
  match reply with
  | .error e => exact hfailed e
  | .ok none => exact hfailed _
  | .ok (some content) =>
    dsimp only
    split
    . exact hfailed _
    rw [Program.ensures_bind, Program.ensures_ofExcept]
    cases decodeFile path (some content) with
    | error e => exact hfailed e
    | ok _ => exact ⟨_, rfl, hturn, fun _ => ⟨state, hdecode, rfl⟩⟩

theorem probe_ensures (l : Ledger) :
    Ensures (server l.path .probe faults) l.probe .outside fun outcome s =>
      Ends l.path .probe faults l (outcome.map fun _ => l) s := by
  unfold probe
  apply underLease_ensures _ fun e => .refused e
  intro start?
  rw [Program.ensures_bind, Program.ensures_attempt]
  apply (refresh_ensures l.path start?).mono
  rintro outcome _ ⟨v, rfl, hturn, hwrote⟩
  cases outcome with
  | error e => exact ⟨v, rfl, .failed hturn nofun⟩
  | ok _ =>
    obtain ⟨state, hdecode, hwritten⟩ := hwrote rfl
    refine ⟨trivial, ?_⟩
    rintro _ _ rfl
    obtain ⟨start?, written?⟩ := v
    cases hwritten
    exact ⟨_, rfl, .probed rfl hdecode⟩

theorem program_ensures (o : Operation) (l : Ledger) :
    Ensures (server l.path o faults) (o.program l) .outside (Ends l.path o faults l) := by
  cases o with
  | load => exact load_ensures l
  | probe =>
    unfold Operation.program
    rw [Program.ensures_bind]
    apply (probe_ensures l).mono
    intro outcome s h
    cases outcome with
    | error e => exact h
    | ok _ => exact h
  | mutate m =>
    cases m with
    | record files => exact record_ensures l files
    | rollBack =>
      unfold Operation.program Mutation.program
      dsimp only
      rw [Program.ensures_bind]
      apply (rollBack_ensures l).mono
      rintro outcome s ⟨h, _⟩
      cases outcome with
      | error e => exact h
      | ok result => exact h
    | remove files => exact remove_ensures l files

end Session

end SchemaMigration.Ledger

import SchemaMigration.Proofs.Ledger.Operations

/-!
This module contains the states that ledgers have in memory. An operation takes a state over behind
all that can fail. So behind an operation a ledger has the state that the operation gives, or the
one from before if the operation fails.
-/

namespace SchemaMigration.Ledger

open Program (Ensures Exec)

def memory : Server Access State where
  Admits _ _ := True
  Serves
    | .keep state, _, _, state' => state' = state
    | _, state, _, state' => state' = state

/-- Whatever it gets for replies, the program takes over no state. -/
def Aloof {α : Type} (p : Program Access Failure α) : Prop :=
  ∀ state, Ensures memory p state fun _ state' => state' = state

theorem memory_quiet : Quiet memory where
  admits _ _ := trivial
  same h := h

section Aloof

variable {α β : Type} {p : Program Access Failure α} {f : α → Program Access Failure β}
  {state : State}

theorem Aloof.ensures_bind (h : Aloof p) {Q : Except Failure β → State → Prop}
    (hf : ∀ a, Ensures memory (f a) state Q) (herror : ∀ e, Q (.error e) state) :
    Ensures memory (p >>= f) state Q := by
  rw [Program.ensures_bind]
  apply (h state).mono
  rintro outcome _ rfl
  cases outcome with
  | ok a => exact hf a
  | error e => exact herror e

theorem Aloof.bind (h : Aloof p) (hf : ∀ a, Aloof (f a)) : Aloof (p >>= f) :=
  fun state => h.ensures_bind (fun a => hf a state) fun _ => rfl

theorem aloof_ofExcept (outcome : Except Failure α) : Aloof (.ofExcept outcome) := by
  intro state
  rw [Program.ensures_ofExcept]

theorem aloof_ask (r : Request) (h : ∀ state, r ≠ .keep state) : Aloof (ask r) := by
  refine fun state => ⟨trivial, ?_⟩
  intro reply state' hserves
  cases r with
  | keep new => exact absurd rfl (h new)
  | _ => exact hserves

theorem aloof_readState (path : Path) : Aloof (readState path) := by
  refine (aloof_ask .read nofun).bind fun reply => ?_
  cases reply with
  | error e => exact aloof_ofExcept (.error e)
  | ok content? => exact aloof_ofExcept _

theorem aloof_writeState (s : State) : Aloof (writeState s) :=
  (aloof_ofExcept _).bind fun content => (aloof_ask (.replace content) nofun).bind aloof_ofExcept

theorem aloof_refresh (path : Path) : Aloof (refresh path) := by
  refine (aloof_readState path).bind fun state => (aloof_ofExcept _).bind fun expected => ?_
  refine (aloof_writeState state).bind fun _ => (aloof_ask .read nofun).bind fun reply => ?_
  match reply with
  | .error e => exact aloof_ofExcept (.error e)
  | .ok none => exact aloof_ofExcept (.error _)
  | .ok (some content) =>
    change Aloof (ite _ _ _)
    split
    . exact aloof_ofExcept (.error _)
    . exact (aloof_ofExcept _).bind fun _ _ => rfl

end Aloof

section Remembers

variable {α : Type} {p : Program Access Failure α} {state new : State} {l : Ledger}

theorem memory_underLease {Q : Except Failure α → State → Prop} (h : Ensures memory p state Q)
    (herror : ∀ e, Q (.error e) state) : Ensures memory (underLease p) state Q := by
  unfold underLease
  refine (aloof_ask .acquire nofun).ensures_bind (fun reply => ?_) herror
  cases reply with
  | error e => exact herror e
  | ok _ =>
    change Ensures _ (Program.andFinally _ _) _ _
    rw [Program.ensures_andFinally]
    apply h.mono
    intro outcome state' hQ
    refine ⟨trivial, ?_⟩
    rintro _ _ rfl
    exact hQ

theorem memory_take {f : Ledger → Program Access Failure α} {Q : Except Failure α → State → Prop}
    (h : Ensures memory (f { l with state := new }) new Q) :
    Ensures memory (l.take new >>= f) state Q := by
  refine ⟨trivial, ?_⟩
  intro _ state' hserves
  rw [show state' = new from hserves]
  exact h

def Remembers (l : Ledger) (p : Program Access Failure Ledger) : Prop :=
  Ensures memory p l.state fun outcome state => state = (l.settle outcome).state

theorem load_remembers (l : Ledger) : l.Remembers l.load := by
  apply memory_underLease _ fun _ => rfl
  refine (aloof_readState _).ensures_bind (fun old => memory_take ?_) fun _ => rfl
  exact memory_quiet.log_bind _ rfl

theorem record_remembers (l : Ledger) (files : List MigrationFile) :
    l.Remembers (l.record files) := by
  unfold record
  split
  . rfl
  apply memory_underLease _ fun _ => rfl
  refine (aloof_readState _).ensures_bind (fun old => ?_) fun _ => rfl
  refine (aloof_ask .now nofun).ensures_bind (fun now => ?_) fun _ => rfl
  split
  . rfl
  . refine (aloof_writeState _).ensures_bind (fun _ => memory_take ?_) fun _ => rfl
    exact memory_quiet.log_bind _ (memory_quiet.forM_log_bind _ _ rfl)

theorem rollBack_remembers (l : Ledger) : l.Remembers (Mutation.program l .rollBack) := by
  change Ensures memory (l.rollBack >>= _) _ _
  rw [Program.ensures_bind]
  apply memory_underLease _ fun _ => rfl
  refine (aloof_readState _).ensures_bind (fun old => ?_) fun _ => rfl
  split
  . exact memory_take rfl
  . refine (aloof_writeState _).ensures_bind (fun _ => memory_take ?_) fun _ => rfl
    exact memory_quiet.log_bind _ (memory_quiet.forM_log_bind _ _ rfl)

theorem remove_remembers (l : Ledger) (files : List Text) : l.Remembers (l.remove files) := by
  unfold remove
  split
  . rfl
  apply memory_underLease _ fun _ => rfl
  refine (aloof_readState _).ensures_bind (fun old => ?_) fun _ => rfl
  refine (aloof_writeState _).ensures_bind (fun _ => memory_take ?_) fun _ => rfl
  exact memory_quiet.log_bind _ (memory_quiet.forM_log_bind _ _ rfl)

theorem probe_remembers (l : Ledger) : l.Remembers (Operation.program l .probe) := by
  change Ensures memory (l.probe >>= _) _ _
  rw [Program.ensures_bind]
  apply memory_underLease _ fun _ => rfl
  rw [Program.ensures_bind, Program.ensures_attempt]
  apply (aloof_refresh l.path l.state).mono
  rintro outcome _ rfl
  cases outcome with
  | error e => rfl
  | ok _ => exact memory_quiet.log_bind (f := pure) _ rfl

theorem program_remembers (l : Ledger) (o : Operation) : l.Remembers (o.program l) := by
  cases o with
  | load => exact load_remembers l
  | probe => exact probe_remembers l
  | mutate m =>
    cases m with
    | record files => exact record_remembers l files
    | rollBack => exact rollBack_remembers l
    | remove files => exact remove_remembers l files

end Remembers

section Call

variable {α S : Type} {server : Server Access S} {p : Program Access Failure α}
  {Q : Except Failure α → S → Prop} {M : Except Failure α → State → Prop}

/-- What a program does to the world and what it does to the memory, it does together. -/
theorem remember_ensures (hheedless : Heedless server) {s : S} {state : State}
    (h : Ensures server p s Q) (hmemory : Ensures memory p state M) :
    Ensures server (remember p state) s fun outcome s' =>
      ∃ result state', outcome = .ok (result, state') ∧ Q result s' ∧ M result state' := by
  induction p generalizing s state with
  | done a => exact ⟨.ok a, state, rfl, h, hmemory⟩
  | fail e => exact ⟨.error e, state, rfl, h, hmemory⟩
  | ask r next ih =>
    cases r with
    | keep new =>
      exact ih () (h.2 () s (hheedless.serves_keep.mpr rfl)) (hmemory.2 () new rfl)
    | _ =>
      refine ⟨h.1, fun reply s' hserves => ?_⟩
      exact ih reply (h.2 reply s' hserves) (hmemory.2 reply state rfl)

end Call

theorem server_heedless (path : Path) : Heedless (server path) where
  admits _ _ := trivial
  same h := h
  admits_keep _ _ := trivial
  serves_keep := Iff.rfl

theorem Session.Ends.path_settle {path : Path} {o : Operation} {faults : Failure → Prop}
    {l : Ledger} {outcome : Except Failure Ledger} {session : Session}
    (h : Session.Ends path o faults l outcome session) : (l.settle outcome).path = l.path := by
  cases h <;> rfl

/-- A call always comes back, with the ledger that the operation leaves in memory. -/
theorem ends_of_call {l : Ledger} {o : Operation} {options : Lease.Options} {files files' : Files}
    {outcome : Except Failure (Except Failure Ledger × Ledger)}
    (hexec : Exec (World.server (File.Owns l.path)) (l.call options (o.program ·)) files outcome
      files') :
    ∃ result, outcome = .ok (result, l.settle result) ∧
      ∃ s : Session, s.Sees (files l.path) (files' l.path) ∧
        Session.Ends l.path o (File.Unsynced l.path) l result s := by
  have hsession := ensures_of_session (Session.program_ensures o l) (files l.path)
  have hcall := remember_ensures (server_heedless l.path) hsession (program_remembers l o)
  have hensures : Ensures (World.server (File.Owns l.path)) (l.call options (o.program ·)) files
      fun outcome files' => ∃ result, outcome = .ok (result, l.settle result) ∧
        ∃ s : Session, s.Sees (files l.path) (files' l.path) ∧
          Session.Ends l.path o (File.Unsynced l.path) l result s := by
    unfold call
    rw [Program.ensures_bind]
    apply (onDisk_ensures hcall options).mono
    rintro _ files' ⟨result, state, rfl, ⟨s, hsees, hends⟩, rfl⟩
    refine ⟨result, ?_, s, hsees, hends⟩
    rw [← hends.path_settle]
  exact hensures.of_exec hexec

end SchemaMigration.Ledger

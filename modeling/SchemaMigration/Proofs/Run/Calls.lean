import SchemaMigration.Proofs.Basic
import SchemaMigration.Proofs.Ledger.Operations
import SchemaMigration.Proofs.Run.Footprint
import SchemaMigration.Run.Run

/-!
This module contains the calls to the database by which the requests of a run are served. Only three
of the requests lead to calls, and to connect may take several of them.
-/

namespace SchemaMigration.Run

open Program (Ensures Exec Within)

inductive Call where
  | connect (reply : Except Text Unit)
  | transaction (statements : List Text) (reply : Except Text Unit)
  | disconnect (reply : Except Text Unit)
  deriving DecidableEq, Repr

namespace Call

def ofReply : (r : World.Request) → World.Reply r → List Call
  | .connect, reply => [.connect reply]
  | .transaction statements, reply => [.transaction statements reply]
  | .disconnect, reply => [.disconnect reply]
  | _, _ => []

def server : Server World (List Call) where
  Admits _ _ := True
  Serves r calls reply calls' := calls' = calls ++ ofReply r reply

def Abstains (r : World.Request) : Prop := ∀ reply, ofReply r reply = []

variable {α : Type} {calls calls' : List Call}

theorem ensures_of_abstains {p : Program World Failure α} (h : Within Abstains p)
    (calls : List Call) : Ensures server p calls fun _ calls' => calls' = calls := by
  induction p generalizing calls with
  | done a => rfl
  | fail e => rfl
  | ask r next ih =>
    refine ⟨trivial, ?_⟩
    rintro reply _ rfl
    rw [h.1 reply, List.append_nil]
    exact ih reply (h.2 reply () trivial) calls

theorem bind_of_abstains {r : World.Request} (h : Abstains r)
    {f : World.Reply r → Program World Failure α} {Q : Except Failure α → List Call → Prop}
    (hf : ∀ reply, Ensures server (f reply) calls Q) :
    Ensures server (World.call r >>= f) calls Q := by
  rw [Program.ensures_call_bind]
  refine ⟨trivial, ?_⟩
  rintro reply _ rfl
  rw [h reply, List.append_nil]
  exact hf reply

end Call

open Call (Abstains)

theorem abstains_of_reads {r : World.Request} (h : World.Reads r) : Abstains r := by
  intro reply
  cases r with
  | connect | transaction | disconnect => cases h
  | _ => rfl

theorem abstains_of_makes {lock : Path} {r : World.Request} (h : Lease.Makes lock r) :
    Abstains r := by
  intro reply
  cases r with
  | connect | transaction | disconnect => cases h
  | _ => rfl

theorem abstains_of_handles {r : World.Request} (h : File.Handles r) : Abstains r := by
  intro reply
  cases r with
  | connect | transaction | disconnect => cases h
  | _ => rfl

theorem ledgerServe_abstains (path : Path) (r : Ledger.Request) (lease : Lease) :
    Within Abstains (Ledger.serve path r lease) :=
  Ledger.serve_within (fun _ => abstains_of_makes) (fun _ => abstains_of_handles) (fun _ => rfl)
    (fun _ => rfl) fun _ _ _ => rfl

theorem onLedger_abstains {α : Type} (options : Options)
    (operation : Ledger → Program Ledger.Access Failure α) :
    Within Abstains (onLedger options operation) := by
  apply Within.attempt
  refine Within.serveBy (fun _ => True) (fun r lease _ => ?_) _ trivial
  exact Ensures.mono (ledgerServe_abstains _ r lease) fun _ _ _ _ _ _ => trivial

/--
Attempts to connect, each but the last of which failed in a way that may pass. There is another one
behind such a failure as long as there are fewer than `limit`.
-/
inductive Connects (limit : Nat) : List Call → Except Failure Unit → Prop
  | connected {texts : List Text} (hpassing : ∀ text ∈ texts, Connection.isTransient text.beforeNul)
    (hlimit : texts.length < limit) :
    Connects limit (texts.map (fun text => .connect (.error text)) ++ [.connect (.ok ())]) (.ok ())
  | failed {texts : List Text} {last : Text}
    (hpassing : ∀ text ∈ texts, Connection.isTransient text.beforeNul)
    (hlimit : texts.length < limit)
    (hlast : Connection.isTransient last.beforeNul → texts.length + 1 = limit) :
    Connects limit (texts.map (fun text => .connect (.error text)) ++ [.connect (.error last)])
      (.error (.noConnection last.beforeNul (texts.length + 1)))

section Connection

open Connection

variable {α : Type} {calls : List Call}

theorem tryConnect_bind {attempt : Nat} {f : Option Text → Program World Failure α}
    {Q : Except Failure α → List Call → Prop}
    (hok : Ensures Call.server (f none) (calls ++ [.connect (.ok ())]) Q)
    (herror : ∀ text, Ensures Call.server (f (some text.beforeNul))
      (calls ++ [.connect (.error text)]) Q) :
    Ensures Call.server (tryConnect attempt >>= f) calls Q := by
  unfold tryConnect
  rw [Program.bind_assoc, Program.ensures_call_bind]
  refine ⟨trivial, ?_⟩
  rintro reply _ rfl
  cases reply with
  | error text => exact herror text
  | ok _ =>
    dsimp only
    split
    . exact Call.bind_of_abstains (fun _ => rfl) fun _ => hok
    . exact hok

theorem giveUp_ensures (attempt : Nat) (cause : Text) :
    Ensures Call.server (giveUp attempt cause) calls fun outcome calls' =>
      outcome = .error (.noConnection cause attempt) ∧ calls' = calls := by
  unfold giveUp
  exact Call.bind_of_abstains (fun _ => rfl) fun _ => ⟨rfl, rfl⟩

theorem pause_bind (millis : Int) {f : Unit → Program World Failure α}
    {Q : Except Failure α → List Call → Prop} (hf : Ensures Call.server (f ()) calls Q) :
    Ensures Call.server (World.pause millis >>= f) calls Q := by
  unfold World.pause
  split
  . exact Call.bind_of_abstains (fun _ => rfl) fun _ => hf
  . exact hf

theorem giveUp_connects {texts : List Text} {last : Text} {limit : Nat}
    (hpassing : ∀ text ∈ texts, isTransient text.beforeNul) (hlimit : texts.length < limit)
    (hlast : isTransient last.beforeNul → texts.length + 1 = limit) :
    Ensures Call.server (giveUp (texts.length + 1) last.beforeNul)
      (calls ++ texts.map (fun text => .connect (.error text)) ++ [.connect (.error last)])
      fun outcome calls' => ∃ attempts, calls' = calls ++ attempts ∧
        Connects limit attempts outcome := by
  apply (giveUp_ensures _ _).mono
  rintro _ _ ⟨rfl, rfl⟩
  exact ⟨_, List.append_assoc _ _ _, .failed hpassing hlimit hlast⟩

/-- The attempts behind some that failed in a way that may pass. -/
theorem connectFrom_connects (policy : Policy) (remaining : Nat) (calls : List Call)
    (texts : List Text) (hpassing : ∀ text ∈ texts, isTransient text.beforeNul) :
    Ensures Call.server (connectFrom policy World.pause remaining (texts.length + 1))
      (calls ++ texts.map fun text => .connect (.error text)) fun outcome calls' =>
        ∃ attempts, calls' = calls ++ attempts ∧
          Connects (texts.length + remaining + 1) attempts outcome := by
  induction remaining generalizing texts with
  | zero =>
    unfold connectFrom
    apply tryConnect_bind
    . exact ⟨_, List.append_assoc _ _ _, .connected hpassing (by omega)⟩
    . exact fun text => giveUp_connects hpassing (by omega) fun _ => rfl
  | succ remaining ih =>
    unfold connectFrom
    apply tryConnect_bind
    . exact ⟨_, List.append_assoc _ _ _, .connected hpassing (by omega)⟩
    . intro text
      dsimp only
      split
      . next htransient =>
        have hpassing' : ∀ text' ∈ texts ++ [text], isTransient text'.beforeNul := by
          rw [List.forall_mem_append, List.forall_mem_singleton]
          exact ⟨hpassing, htransient⟩
        have hnext := ih _ hpassing'
        rw [List.map_append, ← List.append_assoc, List.length_append, List.length_singleton,
          Nat.add_right_comm texts.length 1 remaining] at hnext
        apply Call.bind_of_abstains fun _ => rfl
        intro _
        apply pause_bind
        exact hnext
      . next hlasting =>
        exact giveUp_connects hpassing (by omega) fun htransient => absurd htransient hlasting

theorem connect_connects (policy : Policy) :
    Ensures Call.server (connect policy World.pause) calls fun outcome calls' =>
      ∃ attempts, calls' = calls ++ attempts ∧
        Connects (max policy.maxAttempts 1) attempts outcome := by
  have hlimit : max policy.maxAttempts 1 = 0 + (policy.maxAttempts - 1) + 1 := by omega
  have hfrom := connectFrom_connects policy (policy.maxAttempts - 1) calls [] nofun
  rw [List.map_nil, List.append_nil] at hfrom
  rw [hlimit]
  exact hfrom

end Connection

def Costs (policy : Connection.Policy) : (r : Request) → Reply r → List Call → Prop
  | .connect, reply, calls => Connects (max policy.maxAttempts 1) calls reply
  | .transaction _ _ statements, reply, calls =>
    ∃ answer : Except Text Unit, reply = answer.mapError .database ∧
      calls = [.transaction statements answer]
  | .disconnect, reply, calls =>
    ∃ answer : Except Text Unit, reply = answer.mapError .database ∧ calls = [.disconnect answer]
  | _, _, calls => calls = []

theorem serve_costs {options : Options} {r : Request} {reply : Reply r} {calls calls' : List Call}
    (hexec : Exec Call.server (serve options World.pause r) calls (.ok reply) calls') :
    ∃ spent, Costs options.connection r reply spent ∧ calls' = calls ++ spent := by
  have hsame : Within Abstains (serve options World.pause r) → calls' = calls ++ [] := by
    intro h
    rw [List.append_nil]
    exact (Call.ensures_of_abstains h calls).of_exec hexec
  cases r with
  | load | probe | record | remove =>
    unfold serve at hsame
    exact ⟨[], rfl, hsame (onLedger_abstains options _)⟩
  | listFiles =>
    have hreads := (Migration.listFiles_reads options.migrations).attempt
    exact ⟨[], rfl, hsame (Within.mono (fun _ => abstains_of_reads) hreads)⟩
  | loadFiles =>
    have hreads := (Migration.loadFiles_reads options.migrations options.limits).attempt
    exact ⟨[], rfl, hsame (Within.mono (fun _ => abstains_of_reads) hreads)⟩
  | log entry => exact ⟨[], rfl, hsame (Within.call fun _ => rfl)⟩
  | connect =>
    have hensures : Ensures Call.server (serve options World.pause .connect) calls
        fun outcome calls' => ∃ reply spent, outcome = .ok reply ∧
          Costs options.connection .connect reply spent ∧ calls' = calls ++ spent := by
      unfold serve
      rw [Program.ensures_attempt]
      apply (connect_connects options.connection).mono
      rintro reply _ ⟨spent, rfl, hconnects⟩
      exact ⟨reply, spent, rfl, hconnects, rfl⟩
    obtain ⟨_, spent, ⟨⟩, hcosts, hcalls⟩ := hensures.of_exec hexec
    exact ⟨spent, hcosts, hcalls⟩
  | transaction | disconnect =>
    cases hexec with
    | ask hserves hdone =>
      cases hserves
      cases hdone
      exact ⟨_, ⟨_, rfl, rfl⟩, rfl⟩

end SchemaMigration.Run

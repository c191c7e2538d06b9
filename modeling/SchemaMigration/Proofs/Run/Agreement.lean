import Mathlib.Logic.Relation
import SchemaMigration.Proofs.Run.Account
import SchemaMigration.Proofs.Run.Service

/-!
This module contains the agreement between the ledger file and the database over sequences of runs,
whatever requests fail and whatever others do to all other files meanwhile.
-/

namespace SchemaMigration.Run

open Program (Ensures Exec)
open World (obliging exec_obliging)

structure State where
  files : Files
  history : History

def State.account (s : State) (ledger : Path) : Account :=
  ⟨Ledger.recorded (s.files ledger), s.history⟩

/-- The transaction that a request committed. One that fails commits nothing. -/
def commits : (r : Request) → Reply r → List Commit
  | .transaction direction file _, .ok () => [⟨direction, file⟩]
  | _, _ => []

/--
The requests of a run, as they are served on the file system. Others may change all files but the
ledger file and the temporary files beside it.
-/
def onDisk (options : Options) : Server Access State where
  Admits _ _ := True
  Serves r s reply s' :=
    Exec (World.server (File.Owns options.ledger)) (serve options World.pause r) s.files (.ok reply)
        s'.files ∧
      s'.history = s.history ++ commits r reply

variable {options : Options} {α : Type}

theorem account_eq {s s' : State} {ledger : Path}
    (hentries : Ledger.entries (s'.files ledger) = Ledger.entries (s.files ledger))
    (hhistory : s'.history = s.history ++ []) : s'.account ledger = s.account ledger := by
  rw [State.account, Ledger.recorded_eq, hentries, ← Ledger.recorded_eq, hhistory, List.append_nil]
  rfl

theorem account_serves {r : Request} {s s' : State} {reply : Reply r}
    (h : (onDisk options).Serves r s reply s') :
    Account.server.Serves r (s.account options.ledger) reply (s'.account options.ledger) := by
  obtain ⟨hexec, hhistory⟩ := h
  have halters := serve_alters hexec
  cases r with
  | load =>
    refine ⟨account_eq halters.1 hhistory, fun state hstate => ?_⟩
    rw [State.account, Ledger.recorded_eq, ← (halters.2 state hstate).1]
    rfl
  | record files =>
    refine ⟨hhistory.trans (List.append_nil _), fun hok => ?_⟩
    cases halters with
    | inl hfailed =>
      rw [hfailed.2] at hok
      cases hok
    | inr happended =>
      simp only [State.account, Ledger.recorded_eq]
      generalize Ledger.entries (s'.files options.ledger) = entries at happended
      cases happended with
      | batch appliedAt _ hfresh =>
        have hnodup := hfresh.distinct
        rw [List.map_id] at hnodup
        refine ⟨?_, hnodup, hfresh.unseen⟩
        rw [List.map_append, List.map_map]
        rfl
  | remove files =>
    refine ⟨hhistory.trans (List.append_nil _), fun hok file => ?_⟩
    cases halters with
    | inl hfailed =>
      rw [hfailed.2] at hok
      cases hok
    | inr hremoved =>
      simp only [State.account, Ledger.recorded_eq, hremoved]
      exact mem_files_filter
  | transaction direction file statements =>
    cases reply with
    | error e => exact account_eq halters hhistory
    | ok _ =>
      change Account.mk _ _ = Account.mk _ _
      rw [Ledger.recorded_eq, halters, ← Ledger.recorded_eq, hhistory]
      rfl
  | _ => exact account_eq halters hhistory

/-- One run, or a change that others make between runs. No run ends in an inconsistency. -/
inductive Step (ledger : Path) : State → State → Prop
  | edit {s s' : State} (hledger : s'.files ledger = s.files ledger)
    (hhistory : s'.history = s.history) : Step ledger s s'
  | up {options : Options} (hledger : options.ledger = ledger) (dialect : Sql.Dialect)
    {s s' : State} {outcome : Except Failure Applied}
    (hexec : Exec (onDisk options) (up dialect ledger) s outcome s')
    (hconsistent : ¬ EndsInconsistent outcome) : Step ledger s s'
  | down {options : Options} (hledger : options.ledger = ledger) (dialect : Sql.Dialect)
    {s s' : State} {outcome : Except Failure RolledBack}
    (hexec : Exec (onDisk options) (down dialect ledger) s outcome s')
    (hconsistent : ¬ EndsInconsistent outcome) : Step ledger s s'
  | status {options : Options} (hledger : options.ledger = ledger)
    {s s' : State} {outcome : Except Failure Status}
    (hexec : Exec (onDisk options) status s outcome s')
    (hconsistent : ¬ EndsInconsistent outcome) : Step ledger s s'

theorem consistent_of_exec {p : Program Access Failure α} {s s' : State}
    {outcome : Except Failure α} (hexec : Exec (onDisk options) p s outcome s')
    (h : Ensures Account.server p (s.account options.ledger) Keeps)
    (hconsistent : ¬ EndsInconsistent outcome) : (s'.account options.ledger).Consistent := by
  have hkeeps := h.of_exec (hexec.map (·.account options.ledger) fun _ _ _ _ => account_serves)
  exact hkeeps.resolve_right hconsistent

theorem Step.consistent {ledger : Path} {s s' : State} (h : Step ledger s s')
    (hs : (s.account ledger).Consistent) : (s'.account ledger).Consistent := by
  cases h with
  | edit hledger hhistory =>
    rw [State.account, hledger, hhistory]
    exact hs
  | up hledger dialect hexec hconsistent =>
    subst hledger
    exact consistent_of_exec hexec (up_ensures hs dialect _) hconsistent
  | down hledger dialect hexec hconsistent =>
    subst hledger
    exact consistent_of_exec hexec (down_ensures hs dialect _) hconsistent
  | status hledger hexec hconsistent =>
    subst hledger
    exact consistent_of_exec hexec (status_ensures hs) hconsistent

/-- Whatever a run does when it is performed is covered by how its requests are served. -/
theorem exec_of_perform {run : Program Access Failure α} {files files' : Files}
    {outcome : Except Failure α}
    (hexec : Exec (World.server (File.Owns options.ledger)) (perform options World.pause run) files
      outcome files') (history : History) :
    ∃ history', Exec (onDisk options) run ⟨files, history⟩ outcome ⟨files', history'⟩ := by
  refine exists_exec_of_perform State.mk (fun r t reply t' history hserve => ?_) hexec history
  exact ⟨history ++ commits r reply, hserve, rfl⟩

theorem Step.exists_up {dialect : Sql.Dialect} {file : Text} {files : Files}
    {result : Except Failure Applied × Files}
    (h : (perform options World.pause (Run.up dialect options.ledger)).run (obliging file) files =
      result)
    (hok : result.1.isOk) (history : History) :
    ∃ history', Step options.ledger ⟨files, history⟩ ⟨result.2, history'⟩ := by
  obtain ⟨history', hexec⟩ := exec_of_perform (exec_obliging h _) history
  exact ⟨history', .up rfl dialect hexec (not_endsInconsistent hok)⟩

/--
Behind any sequence of runs the ledger file records exactly the migrations whose newest transaction
applied them, and no migration was applied twice without having been rolled back between.
-/
theorem recorded_iff_applied_last {ledger : Path} {s s' : State}
    (hstart : s.files ledger = none ∧ s.history = [] ∨ (s.account ledger).Consistent)
    (hruns : Relation.ReflTransGen (Step ledger) s s') :
    (∀ file, file ∈ Ledger.recorded (s'.files ledger) ↔ s'.history.last? file = some .apply) ∧
      s'.history.Alternates := by
  have hs : (s.account ledger).Consistent := by
    cases hstart with
    | inl hempty =>
      rw [State.account, hempty.1, hempty.2]
      exact Account.Consistent.empty
    | inr hs => exact hs
  have hs' : (s'.account ledger).Consistent := by
    induction hruns with
    | refl => exact hs
    | tail _ hstep ih => exact hstep.consistent ih
  exact ⟨hs'.recorded, hs'.alternates⟩

/-- The first run on a directory with one migration file, which it applies. -/
theorem applied_last_of_first_run :
    let ledger : Path := ascii "ledger.json"
    let files : Files := fun path =>
      if path = ascii "m/1.sigl" then some (ascii "model A \x7b id Int\n\x7d") else none
    ∃ s, Relation.ReflTransGen (Step ledger) ⟨files, []⟩ s ∧
      Ledger.recorded (s.files ledger) = [ascii "1.sigl"] ∧
      s.history.last? (ascii "1.sigl") = some .apply ∧ s.history.Alternates := by
  intro ledger files
  let options : Options := ⟨ascii "m", ledger, ⟨false, 0, 0⟩, ⟨0, 0⟩, ⟨1, 0⟩⟩
  obtain ⟨result, hresult, hok, hrecords⟩ : ∃ result,
      (perform options World.pause (up .sqlite ledger)).run (obliging (ascii "1.sigl")) files =
        result ∧
      result.1.isOk ∧ Ledger.recorded (result.2 ledger) = [ascii "1.sigl"] :=
    ⟨_, rfl, by decide +kernel⟩
  obtain ⟨history, hstep⟩ := Step.exists_up hresult hok []
  have hruns := Relation.ReflTransGen.single hstep
  obtain ⟨hrecorded, halternates⟩ := recorded_iff_applied_last (Or.inl ⟨rfl, rfl⟩) hruns
  refine ⟨_, hruns, hrecords, ?_, halternates⟩
  rw [← hrecorded, hrecords]
  exact List.mem_singleton_self _

end SchemaMigration.Run

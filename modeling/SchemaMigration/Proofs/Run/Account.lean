import SchemaMigration.Proofs.Run.Course
import SchemaMigration.Proofs.Run.History

/-!
This module contains what runs do to the ledger and to the database. Runs are looked at in their own
terms, as programs that record and remove migrations and commit transactions.
-/

namespace SchemaMigration.Run

open Program (Ensures)

structure Account where
  recorded : List Text
  history : History

namespace Account

def commit (a : Account) (commits : List Commit) : Account :=
  { a with history := a.history ++ commits }

@[simp]
theorem commit_nil (a : Account) : a.commit [] = a := by
  simp [commit]

theorem commit_commit (a : Account) (older newer : List Commit) :
    (a.commit older).commit newer = a.commit (older ++ newer) := by
  simp [commit]

/--
The requests of a run. Nothing is assumed about the ledger behind a request that was to change it
and failed.
-/
def server : Server Access Account where
  Admits _ _ := True
  Serves
    | .load, a, reply, a' => a' = a ∧ ∀ s, reply = .ok s → a.recorded = s.files
    | .record files, a, reply, a' =>
      a'.history = a.history ∧
        (reply.isOk →
          a'.recorded = a.recorded ++ files.map (·.name) ∧ (files.map (·.name)).Nodup ∧
            ∀ name ∈ files.map (·.name), name ∉ a.recorded)
    | .remove files, a, reply, a' =>
      a'.history = a.history ∧
        (reply.isOk → ∀ file, file ∈ a'.recorded ↔ file ∈ a.recorded ∧ file ∉ files)
    | .transaction direction file _, a, .ok (), a' => a' = a.commit [⟨direction, file⟩]
    | _, a, _, a' => a' = a

/--
The ledger records the migrations that were applied last, and no migration was applied twice without
having been rolled back between.
-/
structure Consistent (a : Account) : Prop where
  recorded : ∀ file, file ∈ a.recorded ↔ a.history.last? file = some .apply
  alternates : a.history.Alternates

end Account

/-- A run reported that the ledger does not say what was committed. -/
def EndsInconsistent {α : Type} (outcome : Except Failure α) : Prop :=
  ∃ direction ledger files cause, outcome = .error (.inconsistent direction ledger files cause)

theorem not_endsInconsistent {α : Type} {outcome : Except Failure α} (h : outcome.isOk) :
    ¬ EndsInconsistent outcome := by
  rintro ⟨_, _, _, _, rfl⟩
  cases h

open Account (server)

variable {α β : Type} {a : Account}

def Keeps (outcome : Except Failure α) (a : Account) : Prop :=
  a.Consistent ∨ EndsInconsistent outcome

namespace Account.Consistent

theorem empty : Consistent ⟨[], []⟩ where
  recorded file := by simp
  alternates := History.alternates_nil

theorem record {a a' : Account} (h : a.Consistent) {names : List Text}
    (hhistory : a'.history = a.history ++ names.map (Commit.mk .apply))
    (hrecorded : a'.recorded = a.recorded ++ names) (hnodup : names.Nodup)
    (hnew : ∀ name ∈ names, name ∉ a.recorded) : a'.Consistent where
  recorded file := by
    rw [hhistory, hrecorded, History.last?_append, History.last?_map_mk, List.mem_append,
      h.recorded]
    split
    . next hmem => simp [hmem]
    . next hmem => simp [hmem]
  alternates := by
    rw [hhistory]
    apply h.alternates.append_apply hnodup
    intro name hname
    rw [ne_eq, ← h.recorded]
    exact hnew name hname

theorem remove {a a' : Account} (h : a.Consistent) {names : List Text}
    (hhistory : a'.history = a.history ++ names.map (Commit.mk .rollBack))
    (hrecorded : ∀ file, file ∈ a'.recorded ↔ file ∈ a.recorded ∧ file ∉ names) :
    a'.Consistent where
  recorded file := by
    rw [hhistory, hrecorded, History.last?_append, History.last?_map_mk, h.recorded]
    split
    . next hmem => simp [hmem]
    . next hmem => simp [hmem]
  alternates := by
    rw [hhistory]
    exact h.alternates.append_rollBack names

end Account.Consistent

structure Account.Follows (start : Account) (direction : Direction) (c : Course) (a : Account) :
    Prop where
  pending : c.updated? = none → a = start.commit (c.committed.map (Commit.mk direction))
  updated : c.updated? = some true → a.Consistent

theorem Account.follows_after {start : Account} (hstart : start.Consistent)
    {dialect : Sql.Dialect} {direction : Direction} {r : Request} {c : Course} {reply : Reply r}
    {a' : Account} (h : start.Follows direction c a)
    (hadmits : (Course.server dialect direction).Admits r c)
    (hserves : server.Serves r a reply a') :
    start.Follows direction (c.after r reply) a' := by
  cases r with
  | load =>
    obtain ⟨rfl, _⟩ := hserves
    cases reply with
    | ok s => exact ⟨h.pending, h.updated⟩
    | error e => exact h
  | record files =>
    obtain ⟨rfl, hupdated, _, hfiles, _⟩ := hadmits
    obtain rfl := h.pending hupdated
    obtain ⟨hhistory, hrecord⟩ := hserves
    refine ⟨nofun, fun hok => ?_⟩
    obtain ⟨hrecorded, hnodup, hnew⟩ := hrecord (Option.some.inj hok)
    rw [← hfiles] at hhistory
    exact hstart.record hhistory hrecorded hnodup hnew
  | remove files =>
    obtain ⟨rfl, hupdated, _, rfl⟩ := hadmits
    obtain rfl := h.pending hupdated
    obtain ⟨hhistory, hremove⟩ := hserves
    exact ⟨nofun, fun hok => hstart.remove hhistory (hremove (Option.some.inj hok))⟩
  | transaction direction' file sql =>
    cases reply with
    | error e =>
      cases hserves
      exact h
    | ok _ =>
      obtain ⟨rfl, hupdated, _⟩ := hadmits
      obtain rfl := h.pending hupdated
      cases hserves
      refine ⟨fun _ => ?_, fun htrue => ?_⟩
      . rw [commit_commit, Course.after, List.map_append]
        rfl
      . rw [Course.after, hupdated] at htrue
        cases htrue
  | loadFiles =>
    cases hserves
    cases reply with
    | ok files => exact ⟨h.pending, h.updated⟩
    | error e => exact h
  | _ =>
    cases hserves
    exact h

/-- What a run does to an account follows from the course that it takes. -/
theorem keeps_of_course (h : a.Consistent) {dialect : Sql.Dialect} {direction : Direction}
    {ledger : Path} {p : Program Access Failure α}
    (hp : Ensures (Course.server dialect direction) p .initial (Course.Ends direction ledger)) :
    Ensures server p a Keeps := by
  have hstart : a.Follows direction .initial a := ⟨fun _ => a.commit_nil.symm, nofun⟩
  apply (hp.simulate (a.Follows direction) (fun _ _ _ _ _ => trivial)
    (fun _ _ _ _ _ hfollows hadmits hserves =>
      ⟨_, rfl, Account.follows_after h hfollows hadmits hserves⟩) hstart).mono
  rintro outcome a' ⟨c, hfollows, hends⟩
  cases hends with
  | idle hcommitted hupdated =>
    have hsame := hfollows.pending hupdated
    rw [hcommitted, List.map_nil, Account.commit_nil] at hsame
    subst hsame
    exact .inl h
  | updated hupdated => exact .inl (hfollows.updated hupdated)
  | inconsistent hupdated cause => exact .inr ⟨_, _, _, _, rfl⟩

theorem up_ensures (h : a.Consistent) (dialect : Sql.Dialect) (ledger : Path) :
    Ensures server (up dialect ledger) a Keeps :=
  keeps_of_course h (Course.up_ensures dialect ledger)

theorem down_ensures (h : a.Consistent) (dialect : Sql.Dialect) (ledger : Path) :
    Ensures server (down dialect ledger) a Keeps :=
  keeps_of_course h (Course.down_ensures dialect ledger)

theorem Keeps.demand_bind (h : a.Consistent) {p : Program Access Failure (Except Failure β)}
    (hp : Ensures server p a fun _ a' => a' = a) {f : β → Program Access Failure α}
    (hf : ∀ b, Ensures server (f b) a Keeps) : Ensures server (demand p >>= f) a Keeps := by
  apply ensures_demand_bind
  apply hp.mono
  rintro outcome _ rfl
  match outcome with
  | .error e => exact Or.inl h
  | .ok (.error e) => exact Or.inl h
  | .ok (.ok b) => exact hf b

theorem ask_same (r : Request) (h : ∀ reply a', server.Serves r a reply a' → a' = a) :
    Ensures server (ask r) a fun _ a' => a' = a :=
  ⟨trivial, h⟩

theorem status_ensures (h : a.Consistent) : Ensures server status a Keeps := by
  unfold status
  refine Keeps.demand_bind h (ask_same .load fun _ _ hload => hload.1) fun s => ?_
  refine Keeps.demand_bind h (ask_same .listFiles fun _ _ => id) fun names => ?_
  exact Or.inl h

end SchemaMigration.Run

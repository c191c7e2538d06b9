import SchemaMigration.Proofs.Files
import SchemaMigration.Proofs.Lease.Record

/-!
This module contains the protocol of a lock file: what a lease may do, given what it knows from the
replies it got so far. Taking and giving up a lease follow the protocol.
-/

namespace SchemaMigration.Lease

open Program (Ensures ensures_bind ensures_call_bind)

/-- What tells a process from all others that run, and the lock that its leases are on. -/
structure Identity where
  path : Path
  hostName : Text
  pid : Int

/--
What a lease knows: the token it drew, the record in its temporary file, its own record in the lock
file, the record it saw last in the lock file, the token of a holder that is gone, whether it has
the guard, and whether the lock file still carries the token of the holder that is gone.
-/
structure Knowledge where
  token? : Option Text := none
  written? : Option Record := none
  lock? : Option Record := none
  seen? : Option Record := none
  gone? : Option Text := none
  guarded : Bool := false
  confirmed : Bool := false

namespace Identity

structure Signs (me : Identity) (token? : Option Text) (r : Record) : Prop where
  token : token? = some r.token
  hostName : r.hostName = me.hostName
  pid : r.pid = me.pid

def seenToken? (me : Identity) (k : Knowledge) (pid : Int) : Option Text :=
  (k.seen?.filter fun r => r.pid = pid ∧ r.hostName = me.hostName ∧ r.token ≠ []).map (·.token)

/--
The requests of the protocol. A lease writes and publishes its own record only. It removes the lock
only if the lock is its own, or if it is confirmed that the holder is gone.
-/
def Admits (me : Identity) (k : Knowledge) : World.Request → Prop
  | .read path => path = me.path
  | .openStream temporary =>
    ∃ token, k.token? = some token ∧ temporary = File.temporaryPath me.path token
  | .writeStream temporary content =>
    ∃ r, me.Signs k.token? r ∧ temporary = File.temporaryPath me.path r.token ∧ content = r.encode
  | .link temporary path =>
    ∃ r, k.written? = some r ∧ temporary = File.temporaryPath me.path r.token ∧ path = me.path
  | .remove path =>
    (∃ token, k.token? = some token ∧ path = File.temporaryPath me.path token) ∨
      path = me.path ∧ (k.lock? ≠ none ∨ k.confirmed = true)
  | .openGuard guard | .lockGuard guard | .closeGuard guard => guard = guardPath me.path
  | .hostName | .processId | .isAlive _ | .now | .ticks | .wait _ | .interruptions | .freshName
  | .log _ => True
  | _ => False

def Serves (me : Identity) : (r : World.Request) → Knowledge → World.Reply r → Knowledge → Prop
  | .read _, k, .ok (some content), k' =>
    (∀ r, k.lock? = some r → content = r.encode) ∧
      k' = { k with
        seen? := some (Record.decode content)
        confirmed := k.guarded && k.gone? == some (Record.decode content).token }
  | .read _, k, .ok none, k' => k.lock? = none ∧ k' = k
  | .openStream _, k, _, k' => k' = { k with written? := none }
  | .writeStream _ content, k, true, k' =>
    ∃ r, me.Signs k.token? r ∧ content = r.encode ∧ k' = { k with written? := some r }
  | .writeStream _ _, k, false, k' => k' = { k with written? := none }
  | .link _ _, k, .ok (), k' => k' = { k with lock? := k.written? }
  | .remove path, k, _, k' =>
    k' = if path = me.path then { k with lock? := none, confirmed := false }
      else { k with written? := none }
  | .lockGuard _, k, .ok (), k' => k' = { k with guarded := true }
  | .closeGuard _, k, _, k' => k' = { k with guarded := false, confirmed := false }
  | .hostName, k, reply, k' => (∃ name, reply = some name ∧ cutHostName name = me.hostName) ∧ k' = k
  | .processId, k, reply, k' => reply = me.pid ∧ k' = k
  | .isAlive pid, k, false, k' => k' = { k with gone? := me.seenToken? k pid, confirmed := false }
  | .freshName, _, token, k' => k' = { token? := some token }
  | _, k, _, k' => k' = k

def protocol (me : Identity) : Server World Knowledge where
  Admits r k := me.Admits k r
  Serves := me.Serves

end Identity

/-- A lease that is held has its record in the lock file, and the record can be read back. -/
structure Settled (me : Identity) (k : Knowledge) (l : Lease) : Prop where
  path : l.path = me.path
  lock : ∀ token, l.token? = some token →
    ∃ r, k.lock? = some r ∧ (Record.decode r.encode).token = token

variable {me : Identity} {k : Knowledge} {α β : Type}

theorem readRecord_ensures {Q : Except Failure (Option Record) → Knowledge → Prop}
    (herror : ∀ e, Q (.error e) k) (hnone : k.lock? = none → Q (.ok none) k)
    (hsome : ∀ content, (∀ r, k.lock? = some r → content = r.encode) →
      Q (.ok (some (Record.decode content))) { k with
        seen? := some (Record.decode content)
        confirmed := k.guarded && k.gone? == some (Record.decode content).token }) :
    Ensures me.protocol (readRecord me.path) k Q := by
  unfold readRecord File.readIfExists
  rw [ensures_bind, ensures_call_bind]
  refine ⟨rfl, ?_⟩
  intro reply k' hserves
  match reply, hserves with
  | .error e, hserves =>
    cases hserves
    exact herror _
  | .ok none, hserves =>
    obtain ⟨hlock, rfl⟩ := hserves
    exact hnone hlock
  | .ok (some content), hserves =>
    obtain ⟨hlock, rfl⟩ := hserves
    exact hsome content hlock

theorem localHostName_ensures {Q : Except Failure Text → Knowledge → Prop}
    (h : Q (.ok me.hostName) k) : Ensures me.protocol localHostName k Q := by
  unfold localHostName
  rw [ensures_call_bind]
  refine ⟨trivial, ?_⟩
  rintro reply k' ⟨⟨name, rfl, hname⟩, rfl⟩
  rw [Program.ensures_pure, hname]
  exact h

/-- A lock that counts as stale is one whose holder is gone. -/
theorem isStaleRecord_ensures {r : Record} (hseen : k.seen? = some r) (options : Options) :
    Ensures me.protocol (isStaleRecord options r) k fun outcome k' =>
      k'.token? = k.token? ∧ (outcome = .ok true → k'.gone? = some r.token) := by
  unfold isStaleRecord
  split
  . exact ⟨rfl, nofun⟩
  next htoken =>
  rw [ensures_call_bind]
  refine ⟨trivial, ?_⟩
  rintro now k' rfl
  split
  . exact ⟨rfl, nofun⟩
  rw [ensures_bind]
  apply localHostName_ensures
  dsimp only [Program.Then]
  split
  . exact ⟨rfl, nofun⟩
  next hhost =>
  split
  . exact ⟨rfl, nofun⟩
  rw [ensures_call_bind]
  refine ⟨trivial, ?_⟩
  intro reply k' hserves
  cases reply with
  | true =>
    cases hserves
    exact ⟨rfl, nofun⟩
  | false =>
    cases hserves
    refine ⟨rfl, fun _ => ?_⟩
    have hhostName : r.hostName = me.hostName := by simpa using hhost
    have hnonempty : r.token ≠ [] := by simpa using htoken
    rw [Identity.seenToken?, hseen]
    simp [Option.filter, hhostName, hnonempty]

theorem removeToken_ensures {token : Text} (hguarded : k.guarded = true)
    (hgone : k.gone? = some token) :
    Ensures me.protocol (removeToken me.path token) k fun _ k' => k'.token? = k.token? := by
  unfold removeToken
  rw [ensures_bind]
  apply readRecord_ensures
  . intro e
    rfl
  . intro _
    rfl
  . intro content _
    dsimp only [Program.Then]
    split
    . rfl
    next htoken =>
    have htoken : (Record.decode content).token = token := by simpa using htoken
    rw [ensures_call_bind]
    refine ⟨Or.inr ⟨rfl, Or.inr ?_⟩, ?_⟩
    . simp [hguarded, hgone, htoken]
    . intro reply k' hserves
      have hk' : k'.token? = k.token? := by
        rw [show k' = _ from hserves, if_pos rfl]
      cases reply with
      | error e =>
        refine ⟨trivial, ?_⟩
        rintro _ _ rfl
        exact hk'
      | ok _ =>
        refine ⟨trivial, ?_⟩
        rintro _ _ rfl
        refine ⟨trivial, ?_⟩
        rintro _ _ rfl
        exact hk'

theorem lockGuard_ensures :
    Ensures me.protocol
      (World.uninterrupted (World.call (.lockGuard (guardPath me.path))) :
        Program World Failure _) k fun outcome k' =>
      ∃ locked, outcome = .ok locked ∧
        me.Serves (.lockGuard (guardPath me.path)) k locked k' := by
  refine Program.ensures_uninterrupted (I := (· = k)) trivial (fun _ _ => id) ?_
  rintro _ rfl
  refine ⟨rfl, fun locked k' hserves => ⟨?_, locked, rfl, hserves⟩⟩
  rintro ⟨⟩
  exact hserves

theorem removeIfStale_ensures {l : Lease} (hpath : l.path = me.path) :
    Ensures me.protocol (removeIfStale l) k fun _ k' => k'.token? = k.token? := by
  unfold removeIfStale
  rw [hpath, ensures_bind]
  apply readRecord_ensures
  . intro e
    rfl
  . intro _
    rfl
  . intro content _
    dsimp only [Program.Then]
    rw [ensures_bind]
    apply (isStaleRecord_ensures rfl l.options).mono
    intro outcome k₁ h
    obtain ⟨hk₁, hgone⟩ := h
    match outcome, hgone with
    | .error e, _ => exact hk₁
    | .ok false, _ => exact hk₁
    | .ok true, hgone =>
      dsimp only [Program.Then]
      rw [if_pos rfl, ensures_call_bind]
      refine ⟨rfl, ?_⟩
      intro opened k₂ hserves
      obtain rfl : k₂ = k₁ := by cases opened <;> exact hserves
      cases opened with
      | error e => exact hk₁
      | ok _ =>
        dsimp only
        rw [ensures_bind]
        apply lockGuard_ensures.mono
        intro outcome k₃ hlocked
        obtain ⟨locked, rfl, hserves⟩ := hlocked
        cases locked with
        | error e =>
          cases hserves
          change Ensures _ (World.call _ >>= _) _ _
          rw [ensures_call_bind]
          refine ⟨rfl, ?_⟩
          rintro _ _ rfl
          exact hk₁
        | ok _ =>
          cases hserves
          change Ensures _ (Program.andFinally _ _) _ _
          rw [Program.ensures_andFinally]
          apply Ensures.mono
          . exact removeToken_ensures rfl (hgone rfl)
          . intro outcome k₄ hk₄
            rw [ensures_call_bind]
            refine ⟨rfl, ?_⟩
            rintro _ _ rfl
            exact hk₄.trans hk₁

theorem newRecord_ensures {token : Text} {Q : Except Failure Record → Knowledge → Prop}
    (hsigned : ∀ r : Record, r.token = token → r.hostName = me.hostName → r.pid = me.pid →
      Q (.ok r) k) :
    Ensures me.protocol (newRecord token) k Q := by
  unfold newRecord
  refine ⟨trivial, ?_⟩
  rintro now _ rfl
  refine ⟨trivial, ?_⟩
  rintro pid _ ⟨rfl, rfl⟩
  change Ensures me.protocol (localHostName >>= _) _ Q
  rw [ensures_bind]
  apply localHostName_ensures
  exact hsigned _ rfl rfl rfl

/-- A record that was written is in the temporary file. -/
theorem writeRecord_ensures {record : Record} {temporary : Path} (hsigns : me.Signs k.token? record)
    (htemporary : temporary = File.temporaryPath me.path record.token) :
    Ensures me.protocol (writeRecord temporary record) k fun outcome k' =>
      k'.token? = k.token? ∧
        (outcome = .ok () →
          ∃ r, me.Signs k.token? r ∧ k' = { k with written? := some r }) := by
  unfold writeRecord
  rw [ensures_call_bind]
  refine ⟨⟨record.token, hsigns.token, htemporary⟩, ?_⟩
  rintro opened _ rfl
  cases opened with
  | false => exact ⟨rfl, nofun⟩
  | true =>
    change Ensures _ (Program.ofExcept _ >>= _) _ _
    rw [ensures_bind, Program.ensures_ofExcept]
    cases hserialize : serialize record with
    | error e => exact ⟨rfl, nofun⟩
    | ok content =>
      obtain ⟨_, rfl⟩ := serialize_eq_ok_iff.mp hserialize
      change Ensures _ (World.call _ >>= _) _ _
      rw [ensures_call_bind]
      refine ⟨⟨record, hsigns, htemporary, rfl⟩, ?_⟩
      intro written k' hserves
      cases written with
      | false =>
        cases hserves
        refine ⟨Or.inl ⟨record.token, hsigns.token, htemporary⟩, ?_⟩
        rintro _ _ hremoved
        have hne : temporary ≠ me.path := by
          rw [htemporary]
          exact File.temporaryPath_ne _ _
        rw [show _ = _ from hremoved, if_neg hne]
        exact ⟨rfl, nofun⟩
      | true =>
        obtain ⟨r, hsigns, _, rfl⟩ := hserves
        exact ⟨rfl, fun _ => ⟨r, hsigns, rfl⟩⟩

theorem tryPublish_ensures {token : Text} (htoken : k.token? = some token) :
    Ensures me.protocol (tryPublish me.path token) k fun outcome k' =>
      k'.token? = some token ∧
        (outcome = .ok true →
          ∃ r, k'.lock? = some r ∧ (Record.decode r.encode).token = token) := by
  unfold tryPublish
  rw [ensures_bind]
  apply newRecord_ensures
  intro record hrecord hhostName hpid
  dsimp only [Program.Then]
  have hsigns : me.Signs k.token? record := ⟨by rw [htoken, hrecord], hhostName, hpid⟩
  rw [ensures_bind]
  apply (writeRecord_ensures hsigns (by rw [hrecord])).mono
  rintro outcome k₁ ⟨hk₁, hwritten⟩
  cases outcome with
  | error e => exact ⟨hk₁.trans htoken, nofun⟩
  | ok _ =>
    obtain ⟨r, hsigns, rfl⟩ := hwritten rfl
    have hr : r.token = token := Option.some.inj (hsigns.token.symm.trans htoken)
    change Ensures _ (World.call _ >>= _) _ _
    rw [ensures_call_bind]
    refine ⟨⟨r, rfl, by rw [hr], rfl⟩, ?_⟩
    intro linked k₂ hserves
    have hk₂ : k₂.token? = some token := by cases linked <;> cases hserves <;> exact htoken
    rw [ensures_call_bind]
    refine ⟨Or.inl ⟨token, hk₂, rfl⟩, ?_⟩
    intro removed k₃ hremoved
    have hk₃ : k₃ = { k₂ with written? := none } := by
      rw [show k₃ = _ from hremoved, if_neg (File.temporaryPath_ne me.path token)]
    rw [hk₃]
    match linked, hserves with
    | .error errno, _ => cases errno <;> exact ⟨hk₂, nofun⟩
    | .ok (), hserves =>
      dsimp only
      rw [ensures_bind]
      apply readRecord_ensures
      . intro e
        exact ⟨hk₂, nofun⟩
      . intro _
        exact ⟨hk₂, nofun⟩
      . -- The lock is the record that was linked, since only its holder would remove it.
        intro content hcontent
        cases hserves
        obtain rfl : content = r.encode := hcontent r rfl
        refine ⟨hk₂, ?_⟩
        intro houtcome
        refine ⟨r, rfl, ?_⟩
        simpa using houtcome

theorem timeOut_ensures {Q : Except Failure Unit → Knowledge → Prop} (timeout : Int)
    (h : ∀ e k, Q (.error e) k) : Ensures me.protocol (timeOut me.path timeout) k Q := by
  unfold timeOut
  rw [ensures_bind]
  apply readRecord_ensures
  . intro e
    exact h _ _
  . intro _
    refine ⟨trivial, ?_⟩
    rintro _ _ rfl
    exact h _ _
  . intro content _
    refine ⟨trivial, ?_⟩
    rintro _ _ rfl
    exact h _ _

theorem wait_ensures {Q : Except Failure Unit → Knowledge → Prop} (nanos : Int)
    (h : Q (.ok ()) k) : Ensures me.protocol (wait nanos) k Q := by
  unfold wait
  split
  . refine ⟨trivial, ?_⟩
    rintro _ _ rfl
    exact h
  . exact h

theorem acquireBy_ensures {l : Lease} {token : Text} (hpath : l.path = me.path)
    (htoken : k.token? = some token) (timeout deadline : Int) (fuel attempt : Nat) :
    Ensures me.protocol (acquireBy l token timeout deadline fuel attempt) k fun outcome k' =>
      ∀ result, outcome = .ok result →
        ∃ r, k'.lock? = some r ∧ (Record.decode r.encode).token = token := by
  -- The one thing a lease needs to know before an attempt is its token.
  induction fuel generalizing k attempt with
  | zero =>
    unfold acquireBy
    rw [hpath]
    apply timeOut_ensures
    exact fun _ _ => nofun
  | succ fuel ih =>
    unfold acquireBy
    rw [ensures_bind]
    apply (removeIfStale_ensures hpath).mono
    intro outcome k₁ hk₁
    cases outcome with
    | error e => exact nofun
    | ok _ =>
      dsimp only [Program.Then]
      rw [hpath, ensures_bind]
      apply (tryPublish_ensures (hk₁.trans htoken)).mono
      rintro outcome k₂ ⟨hk₂, hlock⟩
      match outcome, hlock with
      | .error e, _ => exact nofun
      | .ok true, hlock =>
        refine ⟨trivial, ?_⟩
        rintro _ _ rfl _ _
        exact hlock rfl
      | .ok false, _ =>
        dsimp only [Program.Then]
        rw [if_neg Bool.false_ne_true, ensures_call_bind]
        refine ⟨trivial, ?_⟩
        rintro now k₃ rfl
        split
        . apply timeOut_ensures
          exact fun _ _ => nofun
        . rw [ensures_bind]
          apply wait_ensures
          exact ih hk₂ (attempt + 1)

/-- To take a lease follows the protocol, and a lease that is taken has its lock. -/
theorem acquire_ensures {l : Lease} (h : l.Settled me k) (timeout : Int) :
    Ensures me.protocol (l.acquire timeout) k fun outcome k' =>
      ∀ l', outcome = .ok l' → l'.Settled me k' := by
  unfold acquire
  split
  . rintro l' ⟨⟩
    exact h
  . rw [ensures_call_bind]
    refine ⟨trivial, ?_⟩
    rintro now _ rfl
    rw [ensures_call_bind]
    refine ⟨trivial, ?_⟩
    rintro token _ rfl
    rw [ensures_bind]
    apply (acquireBy_ensures h.path rfl _ _ _ _).mono
    intro outcome k' hlock
    cases outcome with
    | error e => exact nofun
    | ok _ =>
      rintro l' ⟨⟩
      refine ⟨h.path, ?_⟩
      rintro _ ⟨⟩
      exact hlock _ rfl

theorem removeOwn_ensures {r : Record} (hlock : k.lock? = some r) (token : Text) :
    Ensures me.protocol (removeOwn me.path token) k fun _ _ => True := by
  unfold removeOwn
  rw [ensures_bind, Program.ensures_attempt]
  apply readRecord_ensures
  . intro e
    exact ⟨trivial, fun _ _ _ => trivial⟩
  . -- There is a lock file as long as the lease has its record there.
    intro hnone
    rw [hlock] at hnone
    cases hnone
  . intro content _
    dsimp only [Program.Then]
    split
    . rw [ensures_call_bind]
      refine ⟨Or.inr ⟨rfl, Or.inl ?_⟩, ?_⟩
      . simp [hlock]
      . intro reply _ _
        cases reply with
        | error e => exact ⟨trivial, fun _ _ _ => trivial⟩
        | ok _ => exact ⟨trivial, fun _ _ _ => trivial⟩
    . exact ⟨trivial, fun _ _ _ => trivial⟩

theorem release_ensures {l : Lease} (h : l.Settled me k) :
    Ensures me.protocol l.release k fun outcome k' =>
      ∀ l', outcome = .ok l' → l'.Settled me k' := by
  unfold release
  split
  . rintro l' ⟨⟩
    exact h
  . next token htoken =>
    obtain ⟨r, hlock, _⟩ := h.lock token htoken
    rw [h.path, ensures_bind]
    apply (removeOwn_ensures hlock token).mono
    intro outcome k' _
    cases outcome with
    | error e => exact nofun
    | ok _ =>
      rintro l' ⟨⟩
      exact ⟨rfl, nofun⟩

end SchemaMigration.Lease

import SchemaMigration.Lease.Lease
import SchemaMigration.Proofs.Files
import SchemaMigration.Proofs.Log

/-!
This module contains the requests that a lease makes. It changes no files but its lock file and
those beside it, and what it logs does not tell of migrations or of the ledger.
-/

namespace SchemaMigration.Lease

open Program (Ensures Within)

def Makes (lock : Path) : World.Request → Prop
  | .read p => p = lock
  | .remove p => p = lock ∨ ∃ token, p = File.temporaryPath lock token
  | .openStream p | .writeStream p _ => ∃ token, p = File.temporaryPath lock token
  | .link _ target => target = lock
  | .openGuard p | .lockGuard p | .closeGuard p => p = guardPath lock
  | .log entry => entry.isAside = true
  | .hostName | .processId | .isAlive _ | .now | .ticks | .wait _ | .interruptions | .freshName =>
    True
  | _ => False

structure Apart (path lock : Path) : Prop where
  ne_lock : path ≠ lock
  ne_guard : path ≠ guardPath lock
  ne_temporary : ∀ token, path ≠ File.temporaryPath lock token

theorem Apart.spares {path lock : Path} (h : Apart path lock) {r : World.Request}
    (hr : Makes lock r) : World.Spares path r := by
  cases r with
  | remove p =>
    obtain rfl | ⟨token, rfl⟩ := hr
    . exact h.ne_lock
    . exact h.ne_temporary token
  | openStream p | writeStream p content =>
    obtain ⟨token, rfl⟩ := hr
    exact h.ne_temporary token
  | link source target =>
    obtain rfl := hr
    exact h.ne_lock
  | openGuard p =>
    obtain rfl := hr
    exact h.ne_guard
  | create | write | rename => cases hr
  | _ => trivial

variable {path : Path} {l : Lease}

theorem readRecord_makes (lock : Path) : Within (Makes lock) (readRecord lock) := by
  unfold readRecord
  exact Within.bind (File.readIfExists_within rfl) fun _ => Within.pure _

theorem localHostName_within {Allowed : World.Request → Prop} (h : Allowed .hostName) :
    Within Allowed localHostName := by
  unfold localHostName
  refine Within.bind (Within.call h) fun name? => ?_
  cases name? with
  | none => exact Within.pure _
  | some name => exact Within.pure _

theorem isStaleRecord_makes (lock : Path) (options : Options) (r : Record) :
    Within (Makes lock) (isStaleRecord options r) := by
  unfold isStaleRecord
  split
  . exact Within.pure _
  refine Within.bind (Within.call trivial) fun now => ?_
  split
  . exact Within.pure _
  refine Within.bind (localHostName_within trivial) fun name => ?_
  split
  . exact Within.pure _
  split
  . exact Within.pure _
  exact Within.bind (Within.call trivial) fun _ => Within.pure _

theorem removeToken_makes (lock : Path) (token : Text) :
    Within (Makes lock) (removeToken lock token) := by
  unfold removeToken
  refine Within.bind (readRecord_makes lock) fun current? => ?_
  cases current? with
  | none => exact Within.pure _
  | some current =>
    dsimp only
    split
    . exact Within.pure _
    refine Within.bind (Within.call (.inl rfl)) fun removed => ?_
    cases removed with
    | error errno => exact Within.call rfl
    | ok _ => exact Within.bind (Within.call rfl) fun _ => Within.call rfl

theorem removeIfStale_makes (l : Lease) : Within (Makes l.path) (removeIfStale l) := by
  unfold removeIfStale
  refine Within.bind (readRecord_makes l.path) fun stale? => ?_
  cases stale? with
  | none => exact Within.pure _
  | some stale =>
    refine Within.bind (isStaleRecord_makes l.path _ _) fun isStale => ?_
    split
    . refine Within.bind (Within.call rfl) fun opened => ?_
      cases opened with
      | error errno => exact Within.throw _
      | ok _ =>
        refine Within.bind (Within.uninterrupted trivial (Within.call rfl)) fun locked => ?_
        cases locked with
        | error errno => exact Within.bind (Within.call rfl) fun _ => Within.throw _
        | ok _ =>
          apply Within.andFinally (removeToken_makes l.path _)
          exact Within.bind (Within.call rfl) fun _ => Within.pure _
    . exact Within.pure _

theorem newRecord_within {Allowed : World.Request → Prop} (hnow : Allowed .now)
    (hprocessId : Allowed .processId) (hhostName : Allowed .hostName) (token : Text) :
    Within Allowed (newRecord token) := by
  unfold newRecord
  refine Within.bind (Within.call hnow) fun now => ?_
  refine Within.bind (Within.call hprocessId) fun pid => ?_
  exact Within.bind (localHostName_within hhostName) fun _ => Within.pure _

theorem writeRecord_within {Allowed : World.Request → Prop} {temporary : Path}
    (hopen : Allowed (.openStream temporary))
    (hwrite : ∀ content, Allowed (.writeStream temporary content))
    (hremove : Allowed (.remove temporary)) (record : Record) :
    Within Allowed (writeRecord temporary record) := by
  unfold writeRecord
  refine Within.bind (Within.call hopen) fun opened => ?_
  split
  . exact Within.throw _
  refine Within.bind (Within.ofExcept _) fun content => ?_
  refine Within.bind (Within.call (hwrite content)) fun written => ?_
  split
  . exact Within.bind (Within.call hremove) fun _ => Within.throw _
  . exact Within.pure _

theorem tryPublish_makes (lock : Path) (token : Text) :
    Within (Makes lock) (tryPublish lock token) := by
  unfold tryPublish
  refine Within.bind (newRecord_within trivial trivial trivial token) fun record => ?_
  refine Within.bind (writeRecord_within ⟨token, rfl⟩ (fun _ => ⟨token, rfl⟩)
    (.inr ⟨token, rfl⟩) record) fun _ => ?_
  refine Within.bind (Within.call rfl) fun linked => ?_
  refine Within.bind (Within.call (.inr ⟨token, rfl⟩)) fun _ => ?_
  split
  . exact Within.pure _
  . exact Within.throw _
  . refine Within.bind (readRecord_makes lock) fun record? => ?_
    cases record? with
    | none => exact Within.pure _
    | some record => exact Within.pure _

theorem timeOut_makes (lock : Path) (timeout : Int) :
    Within (Makes lock) (timeOut lock timeout) := by
  unfold timeOut
  refine Within.bind (readRecord_makes lock) fun holder? => ?_
  exact Within.bind (Within.call rfl) fun _ => Within.throw _

theorem wait_within {Allowed : World.Request → Prop} {nanos : Int} (h : Allowed (.wait nanos)) :
    Within Allowed (wait nanos) := by
  unfold wait
  split
  . exact Within.call h
  . exact Within.pure _

theorem acquireBy_makes (l : Lease) (token : Text) (timeout deadline : Int)
    (fuel attempt : Nat) :
    Within (Makes l.path) (acquireBy l token timeout deadline fuel attempt) := by
  induction fuel generalizing attempt with
  | zero => exact timeOut_makes l.path timeout
  | succ fuel ih =>
    unfold acquireBy
    refine Within.bind (removeIfStale_makes l) fun _ => ?_
    refine Within.bind (tryPublish_makes l.path token) fun published => ?_
    split
    . exact Within.call rfl
    refine Within.bind (Within.call trivial) fun now => ?_
    split
    . exact timeOut_makes l.path timeout
    . exact Within.bind (wait_within trivial) fun _ => ih (attempt + 1)

theorem acquire_makes (l : Lease) (timeout : Int) :
    Ensures (World.allowing (Makes l.path)) (l.acquire timeout) () fun outcome _ =>
      ∀ l', outcome = .ok l' → l'.path = l.path := by
  unfold acquire
  split
  . rintro l' ⟨⟩
    rfl
  refine Within.ensures_bind (Within.call trivial) (fun ticks => ?_) fun _ => nofun
  refine Within.ensures_bind (Within.call trivial) (fun token => ?_) fun _ => nofun
  refine Within.ensures_bind (acquireBy_makes l token _ _ _ _) (fun _ => ?_) fun _ => nofun
  rintro l' ⟨⟩
  rfl

theorem removeOwn_makes (lock : Path) (token : Text) :
    Ensures (World.allowing (Makes lock)) (removeOwn lock token) () fun outcome _ =>
      outcome = .ok () := by
  unfold removeOwn
  rw [Program.ensures_bind, Program.ensures_attempt]
  apply Ensures.mono (readRecord_makes lock)
  intro outcome _ _
  cases outcome with
  | error e => exact ⟨rfl, fun _ _ _ => rfl⟩
  | ok record? =>
    change Ensures _ (ite _ _ _) _ _
    split
    . refine ⟨.inl rfl, fun removed _ _ => ?_⟩
      cases removed with
      | error errno => exact ⟨rfl, fun _ _ _ => rfl⟩
      | ok _ => exact ⟨rfl, fun _ _ _ => rfl⟩
    . exact ⟨rfl, fun _ _ _ => rfl⟩

/-- To give up a lease never fails. -/
theorem release_makes (l : Lease) :
    Ensures (World.allowing (Makes l.path)) l.release () fun outcome _ =>
      ∃ l', outcome = .ok l' ∧ l'.path = l.path := by
  unfold release
  split
  . exact ⟨l, rfl, rfl⟩
  . next token _ =>
    rw [Program.ensures_bind]
    apply (removeOwn_makes l.path token).mono
    rintro _ _ rfl
    exact ⟨_, rfl, rfl⟩

end SchemaMigration.Lease

import SchemaMigration.Proofs.Lease.Vigil

/-!
This module contains what a lease leaves behind where nobody else acts, whatever requests fail. A
lease that could not be taken leaves the lock as it was, or has removed a stale one. A lease that
was taken and given up leaves no lock. Beside the lock only its guard may be new.
-/

namespace SchemaMigration.Lease

open Program (Ensures)
open Vigil (server)

def Scene.Expires (path : Path) (options : Options) (last : Int) (s : Scene) : Prop :=
  ∃ content clock, s.files path = some content ∧ s.around.clock ≤ clock ∧ clock ≤ last ∧
    Surroundings.Stale { s.around with clock } options (.decode content)

/-- What a lease may have done to the files until a moment that has not been taken. -/
structure Scene.Untaken (l : Lease) (last : Int) (s : Scene) (files : Files) : Prop where
  lock : files l.path = s.files l.path ∨
    s.Expires l.path l.options last ∧ files l.path = none
  elsewhere : ∀ p, p ≠ l.path → p ≠ guardPath l.path → files p = s.files p

structure Scene.Taken (l : Lease) (token : Text) (s : Scene) (files : Files) : Prop where
  lock : ∃ content, files l.path = some content ∧ (Record.decode content).token = token
  elsewhere : ∀ p, p ≠ l.path → p ≠ guardPath l.path → files p = s.files p

/-- A lease has been waited for since `start`, where nobody else acted, and is not taken yet. -/
structure Scene.Waits (l : Lease) (start s : Scene) : Prop where
  clock_le : start.around.clock ≤ s.around.clock
  around : s.around = { start.around with clock := s.around.clock }
  files : start.Untaken l s.around.clock s.files

variable {host : Vigil.Host} {mine : Path → Prop} {mayFail : Prop} {l : Lease} {token : Text}
  {timeout : Int} {start : Scene} {v : Vigil}

theorem Scene.Expires.mono {path : Path} {options : Options} {last last' : Int} {s : Scene}
    (h : s.Expires path options last) (hle : last ≤ last') : s.Expires path options last' := by
  obtain ⟨content, clock, hfile, hclock, hlast, hstale⟩ := h
  exact ⟨content, clock, hfile, hclock, Int.le_trans hlast hle, hstale⟩

theorem Scene.waits_self (l : Lease) (s : Scene) : s.Waits l s where
  clock_le := Int.le_refl _
  around := rfl
  files := ⟨.inl rfl, fun _ _ _ => rfl⟩

theorem Scene.Waits.cleared {s : Scene} {outcome : Except Failure Unit} {files : Files}
    (h : start.Waits l s) (hcleared : Cleared l mayFail s outcome files) :
    start.Waits l { s with files } := by
  refine ⟨h.clock_le, h.around, ?_⟩
  cases hcleared with
  | rests _ => exact h.files
  | failed _ _ => exact h.files
  | unguarded _ _ =>
    refine ⟨?_, fun p hlock hguard => ?_⟩
    . change withGuard l.path s.files l.path = _ ∨ _ ∧ withGuard l.path s.files _ = _
      rw [withGuard_of_ne (guardPath_ne l.path).symm]
      exact h.files.lock
    . exact (withGuard_of_ne hguard _).trans (h.files.elsewhere p hlock hguard)
  | @removed content hlock hstale =>
    refine ⟨.inr ⟨?_, Files.set_same _ _ _⟩, fun p hp hguard => ?_⟩
    . cases h.files.lock with
      | inl hsame =>
        rw [h.around] at hstale
        exact ⟨content, _, hsame.symm.trans hlock, h.clock_le, Int.le_refl _, hstale⟩
      | inr hgone =>
        rw [hgone.2] at hlock
        cases hlock
    . exact (Files.set_of_ne hp _ _).trans
        ((withGuard_of_ne hguard _).trans (h.files.elsewhere p hp hguard))

theorem Scene.Waits.attemptOnce (h : start.Waits l v.scene) (hmine : mine l.path)
    (hguard : mine (guardPath l.path)) (htemporary : mine (File.temporaryPath l.path token))
    (hready : host.Ready l.path token start) (htoken : token.isUtf8 = true) :
    Ensures (Vigil.server host mine mayFail) (attemptOnce l token) v fun outcome v' =>
      (outcome = .ok true → start.Taken l token v'.scene.files) ∧
        (outcome ≠ .ok true → start.Waits l v'.scene) := by
  have hne := File.temporaryPath_ne l.path token
  unfold Lease.attemptOnce
  rw [Program.ensures_bind]
  apply (Vigil.removeIfStale_ensures hmine hguard v).mono
  rintro outcome _ ⟨files, rfl, hcleared⟩
  replace h : start.Waits l (v.withFiles files).scene := h.cleared hcleared
  cases outcome with
  | error e => exact ⟨nofun, fun _ => h⟩
  | ok _ =>
    have habsent := (h.files.elsewhere _ hne (temporaryPath_ne_guardPath _ _)).trans hready.absent
    have hfits : host.Fits (v.withFiles files).scene.around := by
      rw [h.around]
      exact ⟨hready.fits.pid, hready.fits.hostName⟩
    apply (Vigil.tryPublish_ensures hmine htemporary habsent hfits htoken).mono
    rintro outcome _ ⟨files', attempts, rfl, _, hpublished⟩
    cases hpublished with
    | present _ => exact ⟨nofun, fun _ => h⟩
    | failed _ _ => exact ⟨nofun, fun _ => h⟩
    | published _ =>
      refine ⟨fun _ => ⟨⟨_, Files.set_same _ _ _, ?_⟩, fun p hp hguard => ?_⟩, absurd rfl⟩
      . rw [hfits.decode_encode htoken]
        rfl
      . exact (Files.set_of_ne hp _ _).trans (h.files.elsewhere p hp hguard)

def Scene.Ends (l : Lease) (token : Text) (start : Scene) : Except Failure Unit → Scene → Prop
  | .ok _, s => start.Taken l token s.files
  | .error _, s => start.Untaken l s.around.clock s.files

theorem Scene.Waits.timeOut (h : start.Waits l v.scene) (hmine : mine l.path) :
    Ensures (Vigil.server host mine mayFail) (timeOut l.path timeout) v fun outcome v' =>
      start.Ends l token outcome v'.scene := by
  apply (Vigil.timeOut_ensures hmine timeout v).mono
  rintro _ _ ⟨rfl, e, rfl, _⟩
  exact h.files

/-- Where nobody else acts, a sleep changes nothing but the time. -/
theorem Scene.Waits.wait (h : start.Waits l v.scene) (hquiet : ∀ n s, host.others n s = s)
    (nanos : Int) {p : Program World Failure Unit} {Q : Except Failure Unit → Vigil → Prop}
    (hp : ∀ v, start.Waits l v.scene → Ensures (Vigil.server host mine mayFail) p v Q) :
    Ensures (Vigil.server host mine mayFail) (wait nanos >>= fun _ => p) v Q := by
  unfold Lease.wait
  split
  . next hpositive =>
    refine ⟨trivial, ?_⟩
    rintro _ _ rfl
    have hlater : v.scene.around.clock ≤ v.scene.around.clock + v.millis nanos := by
      unfold Vigil.millis
      omega
    have hscene : (v.sleep host nanos).scene = v.scene.pass (v.millis nanos) := hquiet _ _
    apply hp
    rw [hscene]
    refine ⟨Int.le_trans h.clock_le hlater, ?_, ?_, h.files.elsewhere⟩
    . unfold Scene.pass
      rw [h.around]
    . exact h.files.lock.imp_right fun hgone => ⟨hgone.1.mono hlater, hgone.2⟩
  . exact hp v h

theorem Scene.Waits.acquireBy (h : start.Waits l v.scene) (hquiet : ∀ n s, host.others n s = s)
    (hmine : mine l.path) (hguard : mine (guardPath l.path))
    (htemporary : mine (File.temporaryPath l.path token))
    (hready : host.Ready l.path token start) (htoken : token.isUtf8 = true) (deadline : Int)
    (fuel attempt : Nat) :
    Ensures (Vigil.server host mine mayFail) (acquireBy l token timeout deadline fuel attempt) v
      fun outcome v' => start.Ends l token outcome v'.scene := by
  induction fuel generalizing v attempt with
  | zero => exact h.timeOut hmine
  | succ fuel ih =>
    rw [acquireBy_succ, Program.ensures_bind]
    apply (h.attemptOnce hmine hguard htemporary hready htoken).mono
    rintro outcome v' ⟨htaken, hwaits⟩
    match outcome with
    | .error e => exact (hwaits nofun).files
    | .ok true =>
      apply (Vigil.log_ensures _ v').mono
      rintro _ _ ⟨rfl, rfl⟩
      exact htaken rfl
    | .ok false =>
      replace hwaits := hwaits nofun
      refine ⟨trivial, ?_⟩
      rintro _ v' ⟨rfl, rfl⟩
      change Ensures _ (ite _ _ _) _ _
      split
      . exact hwaits.timeOut hmine
      . exact hwaits.wait hquiet _ fun v'' h => ih h (attempt + 1)

/-- A lease that nobody else disturbs is taken with its lock, or leaves hardly a trace. -/
theorem acquire_tidy (hheld : l.isHeld = false) (hquiet : ∀ n s, host.others n s = s)
    (hmine : mine l.path) (hguard : mine (guardPath l.path))
    (hready : host.Ready l.path (host.name v.names) v.scene) :
    Ensures (Vigil.server host mine mayFail) (l.acquire timeout) v fun outcome v' =>
      (∃ token, outcome = .ok { l with token? := some token } ∧
        v.scene.Taken l token v'.scene.files) ∨
      ∃ e, outcome = .error e ∧ v.scene.Untaken l v'.scene.around.clock v'.scene.files := by
  have hwaits : v.scene.Waits l { v with names := v.names + 1 }.scene := v.scene.waits_self l
  apply (Vigil.acquire_ensures hheld fun hnames =>
    hwaits.acquireBy hquiet hmine hguard (hnames _ hmine) hready (host.name_utf8 _) _ _ 1).mono
  rintro _ v' ⟨outcome, rfl, hends⟩
  cases outcome with
  | ok _ => exact .inl ⟨_, rfl, hends⟩
  | error e => exact .inr ⟨e, rfl, hends⟩

theorem release_tidy {content : Text} (hmine : mine l.path) (htoken : l.token? = some token)
    (hlock : v.scene.files l.path = some content)
    (hcontent : (Record.decode content).token = token) :
    Ensures (Vigil.server host mine mayFail) l.release v fun outcome v' =>
      outcome = .ok { l with token? := none } ∧ v'.scene.files l.path = none ∧
        ∀ p, p ≠ l.path → v'.scene.files p = v.scene.files p := by
  unfold release
  rw [htoken]
  dsimp only
  rw [Program.ensures_bind]
  apply (Vigil.removeOwn_ensures hmine hlock hcontent).mono
  rintro _ _ ⟨rfl, rfl⟩
  exact ⟨rfl, Files.set_same _ _ _, fun p hp => Files.set_of_ne hp _ _⟩

end SchemaMigration.Lease

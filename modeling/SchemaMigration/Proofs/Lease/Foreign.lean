import Mathlib.Logic.Function.Basic
import Mathlib.Logic.Relation
import SchemaMigration.Proofs.Lease.Footprint

/-!
This module contains that leases leave alone a lock which is somebody else's and whose holder may
not be replaced. Whatever the lock file holds, no sequence of calls removes or replaces it, and no
lease gets hold of it.
-/

namespace SchemaMigration.Lease

open Program (Ensures Exec Within)

/-- What leases go by when they judge whether the holder of a lock is gone. -/
structure Surroundings where
  clock : Int
  hostName? : Option Text
  isAlive : Int → Bool

namespace Surroundings

variable {options : Options} {r : Record} {e e' : Surroundings}

def hostName (e : Surroundings) : Text :=
  match e.hostName? with
  | none => ascii "unknown"
  | some name => cutHostName name

def age (e : Surroundings) (r : Record) : Int := signed64 (e.clock - r.acquiredAtMillis)

structure Stale (e : Surroundings) (options : Options) (r : Record) : Prop where
  token : r.token ≠ []
  age : options.timeout < e.age r
  hostName : r.hostName = e.hostName
  pid : 0 < r.pid
  dead : e.isAlive r.pid = false

def Tells (e : Surroundings) : (r : World.Request) → World.Reply r → Prop
  | .now, reply => reply.millis = e.clock
  | .hostName, reply => reply = e.hostName?
  | .isAlive pid, reply => reply = e.isAlive pid
  | _, _ => True

/-- From one moment to the next a lock does not get younger, and its judge stays on one host. -/
structure Ages (r : Record) (e e' : Surroundings) : Prop where
  hostName : e'.hostName? = e.hostName?
  age : e.age r ≤ e'.age r

end Surroundings

def Judges : World.Request → Prop
  | .now | .hostName => True
  | _ => False

/-- The requests that leave a lock alone. To publish another one is no harm where there is one. -/
def Harmless (path : Path) : World.Request → Prop
  | .link _ _ => True
  | r => World.Spares path r

def Shows (path : Path) (content : Text) : (r : World.Request) → World.Reply r → Prop
  | .read p, reply => p = path → ∀ found?, reply = .ok found? → found? = some content
  | .link _ target, reply => target = path → reply.isOk = false
  | _, _ => True

def Calm (options : Options) (r : Record) : Type := { e : Surroundings // ¬ e.Stale options r }

/-- Requests around a lock file with a content, whose holder may not be replaced at any time. -/
def watch (path : Path) (content : Text) (options : Options) :
    Server World (Calm options (.decode content)) where
  Admits r _ := Harmless path r
  Serves r e reply e' :=
    Shows path content r reply ∧ e.1.Tells r reply ∧
      (Judges r → Surroundings.Ages (.decode content) e.1 e'.1)

section Watch

variable {α β : Type} {path : Path} {content : Text} {options : Options}

def Minds (path : Path) (content : Text) (options : Options) (p : Program World Failure α)
    (Q : Except Failure α → Prop) : Prop :=
  ∀ e, Ensures (watch path content options) p e fun outcome _ => Q outcome

theorem Minds.mono {p : Program World Failure α} {P Q : Except Failure α → Prop}
    (h : Minds path content options p P) (himp : ∀ outcome, P outcome → Q outcome) :
    Minds path content options p Q :=
  fun e => (h e).mono fun outcome _ => himp outcome

theorem Minds.bind {p : Program World Failure α} {f : α → Program World Failure β}
    {P : Except Failure α → Prop} {Q : Except Failure β → Prop}
    (hp : Minds path content options p P)
    (hf : ∀ a, P (.ok a) → Minds path content options (f a) Q)
    (herror : ∀ error, P (.error error) → Q (.error error)) :
    Minds path content options (p >>= f) Q := by
  intro e
  rw [Program.ensures_bind]
  apply (hp e).mono
  intro outcome e' hP
  cases outcome with
  | ok a => exact hf a hP e'
  | error error => exact herror error hP

theorem Minds.of_spares {p : Program World Failure α} {Q : Except Failure α → Prop}
    (h : Ensures (World.allowing (World.Spares path)) p () fun outcome _ => Q outcome) :
    Minds path content options p Q := by
  intro e
  induction p generalizing e with
  | done a => exact h
  | fail error => exact h
  | ask r next ih =>
    refine ⟨?_, fun reply e' _ => ih reply (h.2 reply () trivial) e'⟩
    cases r with
    | link source target => trivial
    | _ => exact h.1

theorem Minds.call {r : World.Request} (h : Harmless path r) :
    Minds path content options (World.call r) fun outcome =>
      ∀ reply, outcome = .ok reply → Shows path content r reply := by
  intro e
  refine ⟨h, ?_⟩
  rintro reply e' ⟨hshows, _⟩ _ ⟨⟩
  exact hshows

theorem readRecord_minds :
    Minds path content options (readRecord path) fun outcome =>
      ∀ record?, outcome = .ok record? → record? = some (.decode content) := by
  unfold readRecord File.readIfExists
  rw [Program.bind_assoc]
  refine Minds.bind (Minds.call trivial) ?_ nofun
  intro reply hshows e
  cases reply with
  | error errno => exact nofun
  | ok found? =>
    rintro _ ⟨⟩
    rw [hshows (.ok found?) rfl rfl found? rfl]
    rfl

theorem localHostName_watched (e : Calm options (.decode content)) :
    Ensures (watch path content options) localHostName e fun outcome e' =>
      outcome = .ok e.1.hostName ∧ Surroundings.Ages (.decode content) e.1 e'.1 := by
  unfold localHostName
  rw [Program.ensures_call_bind]
  refine ⟨trivial, ?_⟩
  rintro _ e' ⟨_, rfl, hages⟩
  unfold Surroundings.hostName
  cases e.1.hostName? with
  | none => exact ⟨rfl, hages trivial⟩
  | some name => exact ⟨rfl, hages trivial⟩

/-- What is found out about a lock step by step was never the case all at once. -/
theorem isStaleRecord_minds :
    Minds path content options (isStaleRecord options (.decode content)) (· = .ok false) := by
  intro e
  unfold isStaleRecord
  split
  . rfl
  next htoken =>
  rw [Program.ensures_call_bind]
  refine ⟨trivial, ?_⟩
  rintro now e₁ ⟨_, hnow, hages⟩
  dsimp only
  split
  . rfl
  next hage =>
  rw [Program.ensures_bind]
  apply (localHostName_watched e₁).mono
  rintro _ e₂ ⟨rfl, hages'⟩
  change Ensures _ (ite _ _ _) _ _
  split
  . rfl
  next hhost =>
  split
  . rfl
  next hpid =>
  refine ⟨trivial, ?_⟩
  rintro alive e₃ ⟨_, halive, _⟩
  have hhostName : e₂.1.hostName = e₁.1.hostName := by
    unfold Surroundings.hostName
    rw [hages'.hostName]
  cases alive with
  | true => rfl
  | false =>
    have hstale : e₂.1.Stale options (.decode content) := {
      token := by simpa using htoken
      age := by
        have hfirst := (hages trivial).age
        have hthen := hages'.age
        change ¬ signed64 (now.millis - _) ≤ _ at hage
        rw [hnow] at hage
        unfold Surroundings.age at hfirst hthen ⊢
        omega
      hostName := by
        rw [hhostName]
        simpa using hhost
      pid := by omega
      dead := halive.symm
    }
    exact absurd hstale e₂.2

variable {l : Lease}

theorem removeIfStale_minds (hpath : l.path = path) :
    Minds path content l.options (removeIfStale l) fun _ => True := by
  subst hpath
  unfold removeIfStale
  refine Minds.bind readRecord_minds ?_ fun _ _ => trivial
  intro record? hrecord
  obtain rfl := hrecord record? rfl
  refine Minds.bind isStaleRecord_minds ?_ fun _ _ => trivial
  rintro _ ⟨⟩ e
  trivial

theorem tryPublish_minds (token : Text) :
    Minds path content options (tryPublish path token) fun outcome => outcome ≠ .ok true := by
  have htemporary := (File.temporaryPath_ne path token).symm
  unfold tryPublish
  refine Minds.bind (Minds.of_spares (newRecord_within trivial trivial trivial token)) ?_ nofun
  intro record _
  refine Minds.bind
    (Minds.of_spares (writeRecord_within htemporary (fun _ => htemporary) htemporary record)) ?_
    nofun
  intro _ _
  refine Minds.bind (Minds.call trivial) ?_ nofun
  intro linked hlinked
  refine Minds.bind (Minds.call htemporary) ?_ nofun
  intro _ _ e
  have hrefused := hlinked linked rfl rfl
  split
  . exact nofun
  . exact nofun
  . cases hrefused

theorem timeOut_minds (timeout : Int) :
    Minds path content options (timeOut path timeout) fun outcome => ∃ e, outcome = .error e := by
  unfold timeOut
  refine Minds.bind readRecord_minds ?_ fun error _ => ⟨error, rfl⟩
  intro record? _
  refine Minds.bind (Minds.of_spares (Within.call trivial)) ?_ fun error _ => ⟨error, rfl⟩
  exact fun _ _ e => ⟨_, rfl⟩

theorem acquireBy_minds (hpath : l.path = path) (token : Text) (timeout deadline : Int)
    (fuel attempt : Nat) :
    Minds path content l.options (acquireBy l token timeout deadline fuel attempt) fun outcome =>
      ∃ e, outcome = .error e := by
  induction fuel generalizing attempt with
  | zero =>
    rw [acquireBy, hpath]
    exact timeOut_minds timeout
  | succ fuel ih =>
    unfold acquireBy
    refine Minds.bind (removeIfStale_minds hpath) ?_ fun error _ => ⟨error, rfl⟩
    intro _ _
    rw [hpath]
    refine Minds.bind (tryPublish_minds token) ?_ fun error _ => ⟨error, rfl⟩
    intro published hpublished
    cases published with
    | true => exact absurd rfl hpublished
    | false =>
      refine Minds.bind (Minds.of_spares (Within.call trivial)) ?_ fun error _ => ⟨error, rfl⟩
      intro now _
      split
      . exact timeOut_minds timeout
      . refine Minds.bind (Minds.of_spares (wait_within trivial)) ?_ fun error _ => ⟨error, rfl⟩
        exact fun _ _ => ih (attempt + 1)

theorem acquire_minds (hpath : l.path = path) (hheld : l.isHeld = false) (timeout : Int) :
    Minds path content l.options (l.acquire timeout) fun outcome => ∃ e, outcome = .error e := by
  unfold acquire
  rw [hheld, if_neg Bool.false_ne_true]
  refine Minds.bind (Minds.of_spares (Within.call trivial)) ?_ fun error _ => ⟨error, rfl⟩
  intro ticks _
  refine Minds.bind (Minds.of_spares (Within.call trivial)) ?_ fun error _ => ⟨error, rfl⟩
  intro token _
  refine Minds.bind (acquireBy_minds hpath token _ _ _ _) ?_ fun error _ => ⟨error, rfl⟩
  rintro _ ⟨_, ⟨⟩⟩

theorem removeOwn_minds {token : Text} (htoken : (Record.decode content).token ≠ token) :
    Minds path content options (removeOwn path token) (· = .ok ()) := by
  intro e
  unfold removeOwn
  rw [Program.ensures_bind, Program.ensures_attempt]
  apply (readRecord_minds e).mono
  intro outcome e' hrecord
  cases outcome with
  | error error => exact ⟨trivial, fun _ _ _ => rfl⟩
  | ok record? =>
    obtain rfl := hrecord record? rfl
    change Ensures _ (ite _ _ _) _ _
    rw [if_neg]
    . exact ⟨trivial, fun _ _ _ => rfl⟩
    . simpa using htoken

theorem release_minds (hpath : l.path = path)
    (htoken : ∀ token ∈ l.token?, (Record.decode content).token ≠ token) :
    Minds path content options l.release (· = .ok { l with token? := none }) := by
  intro e
  unfold release
  split
  . next hnone =>
    change _ = _
    rw [← hnone]
  . next token hsome =>
    rw [Program.ensures_bind, hpath]
    apply (removeOwn_minds (htoken token hsome) e).mono
    rintro _ e' rfl
    rfl

theorem isStale_minds (hpath : l.path = path) :
    Minds path content l.options l.isStale fun outcome => outcome ≠ .ok true := by
  subst hpath
  unfold isStale
  refine Minds.bind readRecord_minds ?_ nofun
  intro record? hrecord
  obtain rfl := hrecord record? rfl
  apply isStaleRecord_minds.mono
  rintro _ rfl
  exact nofun

end Watch

structure Scene where
  files : Files
  around : Surroundings

namespace Scene

variable {α : Type} {path : Path} {content : Text} {options : Options} {s s' : Scene}

def Rests (path : Path) (options : Options) (s : Scene) : Prop :=
  ∀ content, s.files path = some content → ¬ s.around.Stale options (.decode content)

/--
The requests of a lease, where nobody else touches the lock file, and at no time may the holder of
the lock be replaced. Requests may fail, others may change all other files, and the surroundings may
change at any time, but for the clock and the host while a lock is judged.
-/
def server (path : Path) (options : Options) : Server World Scene where
  Admits _ _ := True
  Serves r s reply s' :=
    (World.server (· = path)).Serves r s.files reply s'.files ∧ s.around.Tells r reply ∧
      (Judges r → ∀ content, s.files path = some content →
        Surroundings.Ages (.decode content) s.around s'.around) ∧
      s'.Rests path options

theorem shows_of_effect {r : World.Request} {reply : World.Reply r} {files files' : Files}
    (hr : Harmless path r) (hlock : files path = some content)
    (h : World.Effect r reply files files') :
    Shows path content r reply ∧ files' path = some content := by
  cases r with
  | read p =>
    refine ⟨?_, (h.spares trivial).trans hlock⟩
    rintro rfl found? hfound
    rw [h.1 found? hfound, hlock]
  | link source target =>
    cases reply with
    | error errno =>
      refine ⟨fun _ => rfl, ?_⟩
      rw [show files' = files from h]
      exact hlock
    | ok _ =>
      obtain ⟨copied, _, habsent, rfl⟩ := h
      have hne : path ≠ target := by
        rintro rfl
        rw [hlock] at habsent
        cases habsent
      refine ⟨fun heq => absurd heq.symm hne, ?_⟩
      rw [Files.set_of_ne hne]
      exact hlock
  | _ => exact ⟨trivial, (h.spares hr).trans hlock⟩

theorem ensures_of_minds {p : Program World Failure α} {Q : Except Failure α → Prop}
    (h : Minds path content options p Q) (hlock : s.files path = some content)
    (hrests : s.Rests path options) :
    Ensures (server path options) p s fun outcome s' =>
      Q outcome ∧ s'.files path = some content := by
  let Views (e : Calm options (.decode content)) (s : Scene) : Prop :=
    s.files path = some content ∧ e.1 = s.around
  refine Ensures.mono
    ((h ⟨s.around, hrests content hlock⟩).simulate Views (fun _ _ _ _ _ => trivial) ?_ ⟨hlock, rfl⟩)
    ?_
  . rintro r e s reply s' ⟨hlock, heq⟩ hr ⟨⟨edited, hedited, heffect⟩, htells, hages, hrests'⟩
    rw [← hedited path rfl] at hlock
    obtain ⟨hshows, hlock'⟩ := shows_of_effect hr hlock heffect
    rw [hedited path rfl] at hlock
    refine ⟨⟨s'.around, hrests' content hlock'⟩, ⟨hshows, ?_, ?_⟩, hlock', rfl⟩
    . rw [heq]
      exact htells
    . intro hjudges
      rw [heq]
      exact hages hjudges content hlock
  . rintro outcome s' ⟨_, ⟨hlock', _⟩, hQ⟩
    exact ⟨hQ, hlock'⟩

end Scene

inductive Call where
  | acquire (timeout : Int)
  | release
  | isStale
  | close

namespace Call

def program (l : Lease) : Call → Program World Failure (Option Lease)
  | acquire timeout => return some (← l.acquire timeout)
  | release => return some (← l.release)
  | isStale => do
    let _ ← l.isStale
    return some l
  | close => do
    let _ ← l.release
    return none

def settle (l : Lease) : Except Failure (Option Lease) → Option Lease
  | .ok lease? => lease?
  | .error _ => some l

theorem program_minds {path : Path} {content : Text} {l : Lease} (hpath : l.path = path)
    (htoken : ∀ token ∈ l.token?, (Record.decode content).token ≠ token) (c : Call) :
    Minds path content l.options (c.program l) fun outcome =>
      ∀ l' ∈ settle l outcome, l'.path = path ∧ (l'.isHeld = true → l' = l) := by
  have hsame : ∀ l' ∈ some l, l'.path = path ∧ (l'.isHeld = true → l' = l) := by
    rintro _ ⟨⟩
    exact ⟨hpath, fun _ => rfl⟩
  cases c with
  | acquire timeout =>
    by_cases hheld : l.isHeld
    . have hdone : l.acquire timeout = pure l := by
        rw [Lease.acquire, if_pos hheld]
      intro e
      rw [program, hdone]
      exact hsame
    . refine Minds.bind (acquire_minds hpath (Bool.eq_false_iff.mpr hheld) timeout) ?_
        fun _ _ => hsame
      rintro _ ⟨_, ⟨⟩⟩
  | release =>
    refine Minds.bind (release_minds hpath htoken) ?_ fun _ _ => hsame
    rintro _ ⟨⟩ e _ ⟨⟩
    exact ⟨hpath, nofun⟩
  | isStale => exact Minds.bind (isStale_minds hpath) (fun _ _ _ => hsame) fun _ _ => hsame
  | close =>
    exact Minds.bind (release_minds hpath htoken) (fun _ _ _ => nofun) fun _ _ => hsame

end Call

structure Circle (ι : Type) where
  scene : Scene
  lease? : ι → Option Lease

namespace Circle

variable {ι : Type} [DecidableEq ι] {path : Path} {content : Text} {s s' : Circle ι}

/--
A lease is opened, or one that is open is called, or something happens meanwhile. While a lease
acts, the holder of the lock may not be replaced as far as this lease is concerned.
-/
inductive Step (path : Path) : Circle ι → Circle ι → Prop
  | opened {s : Circle ι} {i : ι} (options : Options) (hnone : s.lease? i = none) :
    Step path s { s with lease? := Function.update s.lease? i (some (.new path options)) }
  | call {s : Circle ι} {i : ι} {l : Lease} (c : Call) {outcome : Except Failure (Option Lease)}
    {scene : Scene} (hlease : s.lease? i = some l) (hrests : s.scene.Rests path l.options)
    (hexec : Exec (Scene.server path l.options) (c.program l) s.scene outcome scene) :
    Step path s ⟨scene, Function.update s.lease? i (Call.settle l outcome)⟩
  | pass {s : Circle ι} {scene : Scene} (hlock : scene.files path = s.scene.files path) :
    Step path s { s with scene }

structure Foreign (path : Path) (content : Text) (s : Circle ι) : Prop where
  lock : s.scene.files path = some content
  path_eq : ∀ i, ∀ l ∈ s.lease? i, l.path = path
  token_ne : ∀ i, ∀ l ∈ s.lease? i, ∀ token ∈ l.token?, (Record.decode content).token ≠ token

def HeldIn (start s : Circle ι) : Prop :=
  ∀ i, ∀ l ∈ s.lease? i, l.isHeld = true → l ∈ start.lease? i

theorem Foreign.update (h : s.Foreign path content) {scene : Scene}
    (hlock : scene.files path = some content) {i : ι} {lease? : Option Lease}
    (hlease : ∀ l ∈ lease?, l.path = path ∧ (l.isHeld = true → l ∈ s.lease? i)) :
    Foreign path content ⟨scene, Function.update s.lease? i lease?⟩ ∧
      HeldIn s ⟨scene, Function.update s.lease? i lease?⟩ := by
  have hleases : ∀ j, ∀ l ∈ Function.update s.lease? i lease? j,
      l.path = path ∧ (l.isHeld = true → l ∈ s.lease? j) := by
    apply (Function.forall_update_iff s.lease? fun j lease? =>
      ∀ l ∈ lease?, l.path = path ∧ (l.isHeld = true → l ∈ s.lease? j)).mpr
    exact ⟨hlease, fun j _ l hl => ⟨h.path_eq j l hl, fun _ => hl⟩⟩
  refine ⟨⟨hlock, fun j l hl => (hleases j l hl).1, ?_⟩, fun j l hl => (hleases j l hl).2⟩
  intro j l hl token htoken
  have hheld : l.isHeld = true := Option.isSome_iff_exists.mpr ⟨token, htoken⟩
  exact h.token_ne j l ((hleases j l hl).2 hheld) token htoken

theorem Foreign.step (h : s.Foreign path content) (hstep : Step path s s') :
    s'.Foreign path content ∧ HeldIn s s' := by
  cases hstep with
  | opened options hnone =>
    apply h.update h.lock
    rintro _ ⟨⟩
    exact ⟨rfl, nofun⟩
  | @call i l c outcome scene hlease hrests hexec =>
    have hminds := c.program_minds (h.path_eq i l hlease) (h.token_ne i l hlease)
    obtain ⟨hsettle, hlock⟩ := (Scene.ensures_of_minds hminds h.lock hrests).of_exec hexec
    apply h.update hlock
    intro l' hl'
    obtain ⟨hpath, hsame⟩ := hsettle l' hl'
    refine ⟨hpath, fun hheld => ?_⟩
    rw [hsame hheld]
    exact hlease
  | pass hlock => exact ⟨⟨hlock.trans h.lock, h.path_eq, h.token_ne⟩, fun _ _ hl _ => hl⟩

theorem Foreign.steps (h : s.Foreign path content)
    (hsteps : Relation.ReflTransGen (Step path) s s') :
    s'.Foreign path content ∧ HeldIn s s' := by
  induction hsteps with
  | refl => exact ⟨h, fun _ _ hl _ => hl⟩
  | tail _ hstep ih =>
    obtain ⟨hforeign, hheld⟩ := ih
    obtain ⟨hforeign', hheld'⟩ := hforeign.step hstep
    exact ⟨hforeign', fun i l hl hl' => hheld i l (hheld' i l hl hl') hl'⟩

/--
A lock that belongs to none of some leases, and whose holder may not be replaced while they act, is
left alone, whatever its file holds: behind any sequence of calls the file is what it was, no lease
is held that was not held from the start, and the next attempt to take a lease that is not held
fails.
-/
theorem foreign_lock_left_alone (h : s.Foreign path content)
    (hsteps : Relation.ReflTransGen (Step path) s s') :
    s'.scene.files path = some content ∧
    (∀ i, ∀ l ∈ s'.lease? i, l.isHeld = true → l ∈ s.lease? i) ∧
    ∀ (i : ι) (l : Lease) (timeout : Int) (outcome : Except Failure Lease) (scene : Scene),
      s'.lease? i = some l → l.isHeld = false → s'.scene.Rests path l.options →
      Exec (Scene.server path l.options) (l.acquire timeout) s'.scene outcome scene →
      ∃ e, outcome = .error e := by
  obtain ⟨hforeign, hheld⟩ := h.steps hsteps
  refine ⟨hforeign.lock, hheld, ?_⟩
  intro i l timeout outcome scene hlease hnot hrests hexec
  have hminds : Minds path content l.options _ _ :=
    acquire_minds (hforeign.path_eq i l hlease) hnot timeout
  exact ((Scene.ensures_of_minds hminds hforeign.lock hrests).of_exec hexec).1

end Circle

def lively : Surroundings := ⟨0, some (ascii "host"), fun _ => true⟩

theorem rests_lively (path : Path) (options : Options) (files : Files) :
    Scene.Rests path options ⟨files, lively⟩ := by
  intro content _ hstale
  cases hstale.dead

theorem exec_lively {α : Type} (path : Path) (options : Options) (p : Program World Failure α)
    (files : Files) :
    Exec (Scene.server path options) p ⟨files, lively⟩ (p.run (World.obliging []) files).1
      ⟨(p.run (World.obliging []) files).2, lively⟩ := by
  let server : Server World Files := {
    Admits := fun _ _ => True
    Serves := fun r files reply files' =>
      (Scene.server path options).Serves r ⟨files, lively⟩ reply ⟨files', lively⟩ }
  have hserves : ∀ r files, server.Serves r files (World.obliging [] r files).1
      (World.obliging [] r files).2 := by
    intro r files
    refine ⟨World.obliging_serves [] r files, ?_, ?_, rests_lively path options _⟩
    . cases r with
      | now | hostName | isAlive => rfl
      | _ => trivial
    . exact fun _ _ _ => ⟨rfl, Int.le_refl _⟩
  exact (Exec.run hserves p files).map (fun files => (⟨files, lively⟩ : Scene)) fun _ _ _ _ h => h

namespace Circle

/--
An old lock of a process that is alive. A lease whose own lock was replaced by it gives itself up,
and another one attempts to take the lock and fails.
-/
theorem foreign_lock_left_alone_by_two :
    let path := ascii "x.lock"
    let content := Record.encode ⟨7, ascii "host", ascii "u", [], -100000⟩
    let files := Files.set (fun _ => none) path (some content)
    let holder : Lease := ⟨path, ⟨0, 0⟩, some (ascii "t")⟩
    let start : Circle Bool :=
      ⟨⟨files, lively⟩, fun i => some (if i then holder else .new path ⟨0, 0⟩)⟩
    start.Foreign path content ∧
    ∃ s : Circle Bool, Relation.ReflTransGen (Step path) start s ∧
      s.lease? true = some (.new path ⟨0, 0⟩) ∧ s.scene.files path = some content ∧
      ∃ e scene, Exec (Scene.server path ⟨0, 0⟩) (Lease.acquire (.new path ⟨0, 0⟩) 0) s.scene
        (.error e) scene := by
  intro path content files holder start
  have hforeign : start.Foreign path content := {
    lock := Files.set_same (fun _ => none) path (some content)
    path_eq := by
      rintro (_ | _) _ ⟨⟩
      . rfl
      . rfl
    token_ne := by
      rintro (_ | _) _ ⟨⟩ token htoken
      . cases htoken
      . cases htoken
        decide +kernel
  }
  have hexec := exec_lively path ⟨0, 0⟩ (Call.release.program holder) files
  have hstep : Step path start _ :=
    .call .release (i := true) rfl (rests_lively path _ files) hexec
  have hsteps := Relation.ReflTransGen.single hstep
  obtain ⟨hlock, _, hfails⟩ := foreign_lock_left_alone hforeign hsteps
  refine ⟨hforeign, _, hsteps, ?_, hlock, ?_⟩
  . decide +kernel
  . have hacquire := exec_lively path ⟨0, 0⟩ (Lease.acquire (.new path ⟨0, 0⟩) 0)
      ((Call.release.program holder).run (World.obliging []) files).2
    obtain ⟨e, herror⟩ := hfails false _ 0 _ _ rfl rfl (rests_lively path _ _) hacquire
    rw [herror] at hacquire
    exact ⟨e, _, hacquire⟩

end Circle

end SchemaMigration.Lease

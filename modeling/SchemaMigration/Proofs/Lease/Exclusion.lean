import SchemaMigration.Proofs.Lease.Coherence

/-!
This module contains that a lease excludes all others: in every state that can come about, at most
one lease is held, and the lock file carries its token.
-/

namespace SchemaMigration.Lease.Fleet

open Program (Ensures)

variable {ι π η : Type} {f : Fleet ι π η} {s s' : State ι π} {know : ι → Knowledge} {i : ι}
  {k : Knowledge}

def Alive (f : Fleet ι π η) (s : State ι π) (i : ι) : Prop := s.status (f.process i) ≠ .dead

/-- A lease is settled, or it follows the protocol until it is. -/
def Conforms (f : Fleet ι π η) (i : ι) (k : Knowledge) : Actor → Prop
  | .idle l => l.Settled (f.identity i) k
  | .busy l p => l.path = f.path ∧ Ensures (f.identity i).protocol p k fun outcome k' =>
    ∀ l', outcome = .ok l' → l'.Settled (f.identity i) k'

structure Invariant (f : Fleet ι π η) (s : State ι π) (know : ι → Knowledge) : Prop where
  coherent : f.Coherent (f.Alive s) know s.shared
  conforms : ∀ i, f.Alive s i → f.Conforms i (know i) (s.actor i)
  unstarted : ∀ i, s.status (f.process i) = .unstarted → (know i).token? = none

theorem settled_of_ensures {me : Identity} {p : Program World Failure Lease} {l : Lease}
    {Q : Except Failure Lease → Knowledge → Prop} (h : Ensures me.protocol p k Q)
    (hsettled : settled? p = some l) : Q (.ok l) k := by
  induction p with
  | done l' =>
    cases hsettled
    exact h
  | fail e => cases hsettled
  | ask r next ih =>
    cases r with
    | log entry => exact ih () (h.2 () k rfl) hsettled
    | _ => cases hsettled

/-- A lease that is held has its record in the lock file. -/
theorem Conforms.lock {a : Actor} (h : f.Conforms i k a) {token : Text}
    (htoken : a.token? = some token) :
    ∃ r, k.lock? = some r ∧ (Record.decode r.encode).token = token := by
  cases a with
  | idle l => exact Settled.lock h token htoken
  | busy l p =>
    obtain ⟨l', hsettled, htoken⟩ := Option.bind_eq_some_iff.mp htoken
    exact (settled_of_ensures h.2 hsettled l' rfl).lock token htoken

theorem settled_new (path : Path) (options : Options) (me : Identity) (h : path = me.path) :
    (Lease.new path options).Settled me k :=
  ⟨h, nofun⟩

theorem Initial.invariant (h : f.Initial s) : f.Invariant s fun _ => {} where
  coherent := by
    refine ⟨?_, ?_, nofun, nofun⟩
    . intro i _
      exact ⟨nofun, nofun, nofun, nofun, nofun, nofun⟩
    . intro content hcontent _
      exact ⟨h.tokens content hcontent, nofun⟩
  conforms i _ := by
    obtain ⟨options, hactor⟩ := h.actors i
    rw [hactor]
    exact settled_new _ _ _ rfl
  unstarted _ _ := rfl

theorem Runs.alive (h : f.Runs s i) : f.Alive s i := by
  intro hdead
  rw [Runs] at h
  rw [h] at hdead
  cases hdead

section Processes

variable [DecidableEq π]

theorem Invariant.start (h : f.Invariant s know) {p : π} (hp : s.status p = .unstarted) :
    f.Invariant { s with status := Function.update s.status p .running } know := by
  -- A process that starts has not been dead, so no lease comes back to life.
  have halive : ∀ j, f.Alive { s with status := Function.update s.status p .running } j →
      f.Alive s j := by
    intro j hj hdead
    apply hj
    have hne : f.process j ≠ p := by
      intro heq
      rw [heq, hp] at hdead
      cases hdead
    exact (Function.update_of_ne hne _ _).trans hdead
  refine ⟨?_, ?_, ?_⟩
  . exact h.coherent.die halive rfl rfl (fun _ _ _ => rfl)
  . intro j hj
    exact h.conforms j (halive j hj)
  . intro j hj
    apply h.unstarted
    by_cases heq : f.process j = p
    . rw [heq] at hj ⊢
      exact hp
    . exact (Function.update_of_ne heq _ _).symm.trans hj

theorem Invariant.crash (h : f.Invariant s know) {p : π} :
    f.Invariant { s with
      shared := { s.shared with guard? := f.dropGuards p s.shared.guard? }
      status := Function.update s.status p .dead } know := by
  have hne : ∀ j, Function.update s.status p .dead (f.process j) ≠ .dead → f.process j ≠ p := by
    intro j hj heq
    rw [heq, Function.update_self] at hj
    exact hj rfl
  have halive : ∀ j, Function.update s.status p .dead (f.process j) ≠ .dead → f.Alive s j := by
    intro j hj
    rwa [Function.update_of_ne (hne j hj)] at hj
  refine ⟨?_, ?_, ?_⟩
  . refine h.coherent.die halive rfl rfl ?_
    -- The guards of the leases that are left belong to other processes.
    intro j hj hguarded
    have hguard := (h.coherent.valid j (halive j hj)).guarded hguarded
    simp [dropGuards, hguard, hne j hj]
  . intro j hj
    exact h.conforms j (halive j hj)
  . intro j hj
    apply h.unstarted
    have hj' : Function.update s.status p .dead (f.process j) = .unstarted := hj
    rwa [Function.update_of_ne (hne j (by rw [hj']; exact nofun))] at hj'

end Processes

variable [DecidableEq ι]

theorem conforms_update {alive : ι → Prop} {actor : ι → Actor} {a : Actor}
    (h : ∀ j, alive j → f.Conforms j (know j) (actor j)) (ha : f.Conforms i k a) (j : ι)
    (hj : alive j) :
    f.Conforms j (Function.update know i k j) (Function.update actor i a j) := by
  by_cases hji : j = i
  . subst hji
    rw [Function.update_self, Function.update_self]
    exact ha
  . rw [Function.update_of_ne hji, Function.update_of_ne hji]
    exact h j hj

theorem Invariant.setActor (h : f.Invariant s know) {a : Actor} (ha : f.Conforms i (know i) a) :
    f.Invariant { s with actor := Function.update s.actor i a } know where
  coherent := h.coherent
  conforms j hj := by
    have hconforms := conforms_update h.conforms ha j hj
    rwa [Function.update_eq_self] at hconforms
  unstarted := h.unstarted

theorem Invariant.request (h : f.Invariant s know) {l : Lease} {r : World.Request}
    {next : World.Reply r → Program World Failure Lease} {reply : World.Reply r}
    {shared : Shared ι} (hruns : f.Runs s i) (hactor : s.actor i = .busy l (.ask r next))
    (hanswers : f.Answers s.status i r s.shared reply shared) :
    ∃ know', f.Invariant { s with
      shared
      actor := Function.update s.actor i (.busy l (next reply)) } know' := by
  have hconforms := h.conforms i hruns.alive
  rw [hactor] at hconforms
  obtain ⟨hpath, hadmits, hnext⟩ := hconforms
  have hstarted : ∀ j, f.Alive s j → (know j).token? ≠ none →
      s.status (f.process j) = .running := by
    intro j hj htoken
    cases hstatus : s.status (f.process j) with
    | unstarted => exact absurd (h.unstarted j hstatus) htoken
    | running => rfl
    | dead => exact absurd hstatus hj
  obtain ⟨k, hserves, hcoherent⟩ :=
    keeps_of_answers h.coherent hruns.alive hstarted hadmits hanswers
  refine ⟨Function.update know i k, hcoherent, ?_, ?_⟩
  . exact conforms_update h.conforms ⟨hpath, hnext reply k hserves⟩
  . intro j hj
    have hji : j ≠ i := by
      rintro rfl
      rw [Runs] at hruns
      rw [hruns] at hj
      cases hj
    rw [Function.update_of_ne hji]
    exact h.unstarted j hj

variable [DecidableEq π]

theorem Invariant.step (h : f.Invariant s know) (hstep : f.Step s s') :
    ∃ know', f.Invariant s' know' := by
  cases hstep with
  | start p hp => exact ⟨know, h.start hp⟩
  | crash p _ => exact ⟨know, h.crash⟩
  | acquire timeout hruns hactor =>
    have hsettled := h.conforms _ hruns.alive
    rw [hactor] at hsettled
    exact ⟨know, h.setActor ⟨hsettled.path, acquire_ensures hsettled timeout⟩⟩
  | release hruns hactor =>
    have hsettled := h.conforms _ hruns.alive
    rw [hactor] at hsettled
    exact ⟨know, h.setActor ⟨hsettled.path, release_ensures hsettled⟩⟩
  | request hruns hactor hanswers => exact h.request hruns hactor hanswers
  | finish hruns hactor =>
    have hconforms := h.conforms _ hruns.alive
    rw [hactor] at hconforms
    exact ⟨know, h.setActor (hconforms.2 _ rfl)⟩
  | abort hruns hactor =>
    have hconforms := h.conforms _ hruns.alive
    rw [hactor] at hconforms
    exact ⟨know, h.setActor (settled_new _ _ _ hconforms.1)⟩

theorem Reachable.invariant (h : f.Reachable s) : ∃ know, f.Invariant s know := by
  induction h with
  | initial h => exact ⟨_, h.invariant⟩
  | step _ hstep ih =>
    obtain ⟨know, hinvariant⟩ := ih
    exact hinvariant.step hstep

def CanReach (f : Fleet ι π η) (i : ι) (l : Lease) (p : Program World Failure Lease)
    (shared : Shared ι) : Prop :=
  ∃ s, f.Reachable s ∧ f.Runs s i ∧ s.actor i = .busy l p ∧ s.shared = shared

theorem CanReach.request {l : Lease} {r : World.Request}
    {next : World.Reply r → Program World Failure Lease} {shared shared' : Shared ι}
    (h : f.CanReach i l (.ask r next) shared) (reply : World.Reply r)
    (hanswers : ∀ status, f.Answers status i r shared reply shared') :
    f.CanReach i l (next reply) shared' := by
  obtain ⟨s, hreachable, hruns, hactor, rfl⟩ := h
  refine ⟨_, hreachable.step (.request hruns hactor (hanswers s.status)), hruns, ?_, rfl⟩
  exact Function.update_self _ _ _

theorem CanReach.acquire (f : Fleet ι π η) (i : ι) (options : Options) (timeout : Int) :
    f.CanReach i (Lease.new f.path options) ((Lease.new f.path options).acquire timeout)
      ⟨fun _ => none, fun _ => none, []⟩ := by
  have hinitial : f.Initial
      ⟨⟨fun _ => none, fun _ => none, []⟩, fun _ => .unstarted,
        fun _ => .idle (Lease.new f.path options)⟩ :=
    ⟨fun _ => rfl, nofun, fun _ => rfl, fun _ => ⟨options, rfl⟩⟩
  have hstarted := (Reachable.initial hinitial).step (.start (f.process i) rfl)
  have hruns := Function.update_self (f.process i) Status.running fun _ => Status.unstarted
  exact ⟨_, hstarted.step (.acquire timeout hruns rfl), hruns, Function.update_self _ _ _, rfl⟩

/-- Every lease can come to be held. -/
theorem exists_reachable_held (f : Fleet ι π η) (i : ι) (token : Text)
    (hpid : Json.inRange 32 (f.pid (f.process i)) = true)
    (hhostName : (f.identity i).hostName.isUtf8 = true) (htoken : token.isUtf8 = true) :
    ∃ s, f.Reachable s ∧ f.Runs s i ∧ (s.actor i).token? = some token := by
  let now : Moment := ⟨0⟩
  let r : Record :=
    ⟨f.pid (f.process i), (f.identity i).hostName, token, now.iso8601, signed64 now.millis⟩
  have hfits : r.Fits := Record.fits_of_utf8 now hpid hhostName htoken
  have hserialize : serialize r = .ok r.encode := serialize_eq_ok_iff.mpr ⟨hfits.utf8, rfl⟩
  have hfree : ∀ (files : Files) (content? : Option Text),
      files.set (File.temporaryPath f.path token) content? f.path = files f.path :=
    Files.set_of_ne (File.temporaryPath_ne f.path token).symm
  have h := CanReach.acquire f i ⟨0, 0⟩ 0
  -- The clock, the token, and no lock file yet.
  have h := h.request (0 : Int) fun _ => ⟨_, rfl, rfl⟩
  have h := h.request token fun _ => ⟨List.not_mem_nil, rfl⟩
  have h := h.request (.ok none) fun _ => ⟨_, ⟨fun _ h => by cases h; rfl, rfl⟩, rfl⟩
  -- The record, its publication, and the lock read back.
  have h := h.request now fun _ => ⟨_, rfl, rfl⟩
  have h := h.request (f.pid (f.process i)) fun _ => ⟨rfl, rfl⟩
  have h := h.request (some (f.hostName (f.hostOf i))) fun _ => ⟨rfl, rfl⟩
  have h := h.request true fun _ => ⟨_, rfl, rfl⟩
  have h : f.CanReach i _
      (((((Program.ofExcept (serialize r)).bind _).bind _).bind _).bind _) _ := h
  rw [hserialize] at h
  have h := h.request true fun _ => ⟨_, rfl, rfl⟩
  have h := h.request (.ok ()) fun _ =>
    ⟨_, ⟨_, Files.set_same _ _ _, (hfree _ _).trans (hfree _ _), rfl⟩, rfl⟩
  have h := h.request (.error .busy) fun _ => ⟨_, rfl, rfl⟩
  have h := h.request (.ok (some r.encode)) fun _ =>
    ⟨_, ⟨fun _ h => by cases h; exact (Files.set_same _ _ _).symm, rfl⟩, rfl⟩
  obtain ⟨s, hreachable, hruns, hactor, _⟩ := h
  refine ⟨s, hreachable, hruns, ?_⟩
  rw [hactor]
  change (settled? (Program.bind (ite ((Record.decode r.encode).token == token) _ _) _)).bind _ = _
  rw [Record.decode_encode_of_fits hfits, beq_self_eq_true, if_pos rfl]
  rfl

/--
At most one lease of a running process is held at a time, and while one is, the lock file is there
and carries its token.
-/
theorem exclusive_of_reachable (h : f.Reachable s) :
    (∀ i j, f.Runs s i → f.Runs s j → (s.actor i).token? ≠ none → (s.actor j).token? ≠ none →
      i = j) ∧
    ∀ i token, f.Runs s i → (s.actor i).token? = some token →
      ∃ content, s.shared.files f.path = some content ∧ (Record.decode content).token = token := by
  obtain ⟨know, hinvariant⟩ := h.invariant
  have hlock : ∀ i token, f.Runs s i → (s.actor i).token? = some token →
      ∃ r, (know i).lock? = some r ∧ (Record.decode r.encode).token = token := by
    intro i token hi htoken
    exact (hinvariant.conforms i hi.alive).lock htoken
  constructor
  . intro i j hi hj hti htj
    obtain ⟨ti, hti⟩ := Option.ne_none_iff_exists'.mp hti
    obtain ⟨tj, htj⟩ := Option.ne_none_iff_exists'.mp htj
    obtain ⟨ri, hri, _⟩ := hlock i ti hi hti
    obtain ⟨rj, hrj, _⟩ := hlock j tj hj htj
    apply hinvariant.coherent.unique hi.alive hj.alive
    . exact Or.inl (by rw [hri]; exact Option.some_ne_none ri)
    . exact Or.inl (by rw [hrj]; exact Option.some_ne_none rj)
  . intro i token hi htoken
    obtain ⟨r, hr, hcarries⟩ := hlock i token hi htoken
    exact ⟨r.encode, ((hinvariant.coherent.valid i hi.alive).lock r hr).2, hcarries⟩

/-- Two processes on two hosts, the first of which holds its lease. -/
theorem exclusive_of_two_hosts :
    let f : Fleet Bool Bool Bool := {
      path := ascii "ledger.lock"
      process := id
      host := id
      pid := fun p => if p then 7 else 8
      hostName := fun h => if h then ascii "a" else ascii "b"
      hostName_injective := by
        unfold Function.Injective
        decide }
    ∃ s, f.Reachable s ∧ f.Runs s true ∧ (s.actor true).token? = some (ascii "t") ∧
      (∀ j, f.Runs s j → (s.actor j).token? ≠ none → j = true) ∧
      ∃ content, s.shared.files f.path = some content ∧
        (Record.decode content).token = ascii "t" := by
  intro f
  obtain ⟨s, hreachable, hruns, hheld⟩ :=
    f.exists_reachable_held true (ascii "t") (by decide) (by decide) (by decide)
  obtain ⟨hunique, hcarries⟩ := exclusive_of_reachable hreachable
  refine ⟨s, hreachable, hruns, hheld, ?_, hcarries true _ hruns hheld⟩
  intro j hj htoken
  exact hunique j true hj hruns htoken (by rw [hheld]; exact Option.some_ne_none _)

end SchemaMigration.Lease.Fleet

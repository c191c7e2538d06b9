import Mathlib.Tactic.IntervalCases
import SchemaMigration.Proofs.Lease.Vigil

/-!
This module contains how long a lease is waited for where requests do not fail and time passes only
in sleep. The sleeps fill the time up to the deadline exactly, there is an attempt before and behind
each of them, and the first attempt at a time when the lock may be taken succeeds. The deadline is a
signed number of sixty-four bits that counts nanoseconds, and a timeout beyond that is cut short.
-/

namespace SchemaMigration.Lease

open Program (Ensures)

def Scene.Free (path : Path) (options : Options) (s : Scene) : Prop :=
  ∀ content, s.files path = some content → s.around.Stale options (.decode content)

/-- A timeout as sleeps of an interval each, with a shorter one at the end for the rest. -/
def waits (interval timeout : Nat) : List Int :=
  List.replicate (timeout / interval) (interval : Int) ++
    if timeout % interval = 0 then [] else [((timeout % interval : Nat) : Int)]

section Waits

variable {interval timeout : Nat}

theorem waits_zero (interval : Nat) : waits interval 0 = [] := by
  unfold waits
  rw [Nat.zero_div, Nat.zero_mod]
  rfl

theorem waits_eq_cons (hinterval : 0 < interval) (htimeout : 0 < timeout) :
    waits interval timeout =
      ((min interval timeout : Nat) : Int) :: waits interval (timeout - min interval timeout) := by
  unfold waits
  by_cases hle : interval ≤ timeout
  . rw [Nat.min_eq_left hle, Nat.div_eq_sub_div hinterval hle, Nat.mod_eq_sub_mod hle]
    rfl
  . have hlt : timeout < interval := Nat.lt_of_not_le hle
    rw [Nat.min_eq_right hlt.le, Nat.sub_self, Nat.zero_div, Nat.zero_mod,
      Nat.div_eq_of_lt hlt, Nat.mod_eq_of_lt hlt, if_neg htimeout.ne']
    rfl

theorem length_waits (hinterval : 0 < interval) :
    (waits interval timeout).length = (timeout + interval - 1) / interval := by
  unfold waits
  have hdiv := Nat.div_add_mod timeout interval
  have hmod := Nat.mod_lt timeout hinterval
  rw [List.length_append, List.length_replicate]
  split
  . next hzero =>
    symm
    apply Nat.div_eq_of_lt_le
    . rw [List.length_nil, Nat.add_zero, Nat.mul_comm]
      omega
    . rw [List.length_nil, Nat.add_zero, Nat.succ_mul, Nat.mul_comm]
      omega
  . next hpositive =>
    symm
    apply Nat.div_eq_of_lt_le
    . rw [List.length_singleton, Nat.succ_mul, Nat.mul_comm]
      omega
    . rw [List.length_singleton, Nat.succ_mul, Nat.succ_mul, Nat.mul_comm]
      omega

theorem length_waits_le (interval timeout : Nat) :
    (waits interval timeout).length ≤ timeout / interval + 1 := by
  unfold waits
  rw [List.length_append, List.length_replicate]
  split
  . exact Nat.le_succ _
  . exact Nat.le_refl _

theorem sum_waits (interval timeout : Nat) : (waits interval timeout).sum = timeout := by
  unfold waits
  rw [List.sum_append_int, List.sum_replicate_int]
  have hdiv := Nat.div_add_mod' timeout interval
  split
  . next hzero =>
    rw [hzero, Nat.add_zero] at hdiv
    rw [List.sum_nil, Int.add_zero]
    exact_mod_cast hdiv
  . rw [List.sum_singleton]
    exact_mod_cast hdiv

/-- It does not matter in which unit a timeout and an interval are counted. -/
theorem waits_mul (interval timeout unit : Nat) (hunit : 0 < unit) :
    waits (interval * unit) (timeout * unit) = (waits interval timeout).map (· * (unit : Int)) := by
  unfold waits
  rw [Nat.mul_div_mul_right _ _ hunit, Nat.mul_mod_mul_right, List.map_append, List.map_replicate,
    Int.natCast_mul]
  have hrest : timeout % interval * unit = 0 ↔ timeout % interval = 0 := by
    rw [Nat.mul_eq_zero, or_iff_left hunit.ne']
  simp only [hrest, apply_ite (List.map _), List.map_nil, List.map_cons, Int.natCast_mul]

end Waits

namespace Vigil

def serve (host : Host) : (r : World.Request) → Vigil → World.Reply r × Vigil
  | .hostName, v => (v.scene.around.hostName?, v)
  | .processId, v => (host.pid, v)
  | .isAlive pid, v => (v.scene.around.isAlive pid, v)
  | .now, v => (⟨v.scene.around.clock⟩, v)
  | .ticks, v => (v.ticks, v)
  | .wait nanos, v => ((), v.sleep host nanos)
  | .freshName, v => (host.name v.names, { v with names := v.names + 1 })
  | .link source target, v =>
    let (reply, files) := World.obliging [] (.link source target) v.scene.files
    (reply, { v.withFiles files with attempts := v.attempts + 1 })
  | r, v =>
    let (reply, files) := World.obliging [] r v.scene.files
    (reply, v.withFiles files)

theorem serve_serves (host : Host) (mayFail : Prop) (r : World.Request) (v : Vigil)
    (hadmits : (server host (fun _ => True) mayFail).Admits r v) :
    (server host (fun _ => True) mayFail).Serves r v (serve host r v).1 (serve host r v).2 := by
  cases r with
  | hostName | processId | isAlive | now | ticks => exact ⟨rfl, rfl⟩
  | wait nanos => rfl
  | freshName => exact ⟨⟨fun _ _ => trivial, rfl⟩, rfl, rfl⟩
  | _ => exact ⟨_, World.obliging_settles [] mayFail hadmits, rfl⟩

def wait (host : Host) (v : Vigil) (nanos : List Int) : Vigil := nanos.foldl (sleep host) v

theorem wait_cons (host : Host) (v : Vigil) (first : Int) (rest : List Int) :
    v.wait host (first :: rest) = (v.sleep host first).wait host rest := rfl

theorem wait_tried (host : Host) (v : Vigil) (attempts : Nat) (nanos : List Int) :
    wait host { v with attempts } nanos = { v.wait host nanos with attempts } := by
  induction nanos generalizing v with
  | nil => rfl
  | cons first rest ih => exact ih (v.sleep host first)

theorem wait_named (host : Host) (v : Vigil) (names : Nat) (nanos : List Int) :
    wait host { v with names } nanos = { v.wait host nanos with names } := by
  induction nanos generalizing v with
  | nil => rfl
  | cons first rest ih => exact ih (v.sleep host first)

theorem sleeps_wait (host : Host) (v : Vigil) (nanos : List Int) :
    (v.wait host nanos).sleeps = v.sleeps ++ nanos := by
  induction nanos generalizing v with
  | nil => exact (List.append_nil _).symm
  | cons first rest ih =>
    rw [wait_cons, ih]
    exact List.append_assoc _ [first] rest

theorem ticks_wait (host : Host) (v : Vigil) (nanos : List Int) :
    (v.wait host nanos).ticks = v.ticks + nanos.sum := by
  induction nanos generalizing v with
  | nil => exact (Int.add_zero v.ticks).symm
  | cons first rest ih =>
    rw [wait_cons, ih, List.sum_cons, ← Int.add_assoc]
    rfl

/-- The time up to the deadline of a timeout that starts now, in nanoseconds. -/
def span (v : Vigil) (timeout : Int) : Nat := (signed64 (v.ticks + nanos timeout) - v.ticks).toNat

end Vigil

open Vigil (server)

section Attempt

variable {host : Vigil.Host} {l : Lease} {token : Text} {v : Vigil}

theorem attemptOnce_of_free (hready : host.Ready l.path token v.scene)
    (htoken : token.isUtf8 = true)
    (hfree : v.scene.Free l.path l.options) :
    Ensures (server host (fun _ => True) False) (attemptOnce l token) v fun outcome v' =>
      outcome = .ok true ∧ v'.sleeps = v.sleeps ∧ v'.attempts = v.attempts + 1 := by
  unfold attemptOnce
  rw [Program.ensures_bind]
  apply (Vigil.removeIfStale_ensures trivial trivial v).mono
  rintro outcome _ ⟨files, rfl, hcleared⟩
  -- Either way there is no lock any more, so it can be published.
  suffices hgone : outcome = .ok () ∧ files l.path = none ∧
      files (File.temporaryPath l.path token) = none by
    obtain ⟨rfl, hnone, habsent⟩ := hgone
    apply (Vigil.tryPublish_ensures (v := v.withFiles files) trivial trivial habsent
      hready.fits htoken).mono
    rintro outcome' _ ⟨files', attempts, rfl, hattempts, hpublished⟩
    cases hpublished with
    | published _ => exact ⟨rfl, rfl, hattempts rfl⟩
    | present h => exact (h hnone).elim
    | failed _ hfail => exact hfail.elim
  cases hcleared with
  | rests hrests =>
    refine ⟨rfl, ?_, hready.absent⟩
    cases hlock : v.scene.files l.path with
    | none => rfl
    | some content => exact absurd (hfree content hlock) (hrests content hlock)
  | removed hlock hstale =>
    refine ⟨rfl, Files.set_same _ _ _, ?_⟩
    rw [Files.set_of_ne (File.temporaryPath_ne _ _),
      withGuard_of_ne (temporaryPath_ne_guardPath _ _)]
    exact hready.absent
  | failed _ hfail => exact hfail.elim
  | unguarded _ hfail => exact hfail.elim

theorem attemptOnce_of_not_free (hready : host.Ready l.path token v.scene)
    (htoken : token.isUtf8 = true)
    (hfree : ¬ v.scene.Free l.path l.options) :
    Ensures (server host (fun _ => True) False) (attemptOnce l token) v fun outcome v' =>
      outcome = .ok false ∧ v' = { v with attempts := v.attempts + 1 } := by
  obtain ⟨content, hlock, hstale⟩ : ∃ content, v.scene.files l.path = some content ∧
      ¬ v.scene.around.Stale l.options (.decode content) := by
    simpa [Scene.Free] using hfree
  unfold attemptOnce
  rw [Program.ensures_bind]
  apply (Vigil.removeIfStale_ensures trivial trivial v).mono
  rintro outcome _ ⟨files, rfl, hcleared⟩
  cases hcleared with
  | rests _ =>
    apply (Vigil.tryPublish_ensures trivial trivial hready.absent hready.fits htoken).mono
    rintro outcome' _ ⟨files', attempts, rfl, hattempts, hpublished⟩
    cases hpublished with
    | published h =>
      have hnone : v.scene.files l.path = none := h
      rw [hlock] at hnone
      cases hnone
    | present _ =>
      cases hattempts rfl
      exact ⟨rfl, rfl⟩
    | failed _ hfail => exact hfail.elim
  | removed hlock' hstale' =>
    rw [hlock] at hlock'
    cases hlock'
    exact absurd hstale' hstale
  | failed _ hfail => exact hfail.elim
  | unguarded _ hfail => exact hfail.elim

theorem not_free_of_alive {path : Path} {options : Options} {s : Scene} {content : Text}
    (hlock : s.files path = some content)
    (halive : s.around.isAlive (Record.decode content).pid = true) : ¬ s.Free path options := by
  intro hfree
  have hdead := (hfree content hlock).dead
  rw [halive] at hdead
  cases hdead

variable {interval remaining : Nat} {timeout deadline : Int}

structure Paced (l : Lease) (deadline : Int) (interval remaining : Nat) (v : Vigil) : Prop where
  interval_eq : nanos l.options.retryInterval = interval
  interval_pos : 0 < interval
  remaining_eq : (deadline - v.ticks).toNat = remaining
  remaining_lt : remaining < 2 ^ 63

theorem Paced.sleep (h : Paced l deadline interval remaining v) (attempts first : Nat) :
    Paced l deadline interval (remaining - first)
      (Vigil.sleep host { v with attempts } first) where
  interval_eq := h.interval_eq
  interval_pos := h.interval_pos
  remaining_eq := by
    have hremaining := h.remaining_eq
    change (deadline - (v.ticks + first)).toNat = _
    omega
  remaining_lt := by
    have hlt := h.remaining_lt
    omega

/-- Up to the deadline a sleep does not get longer for want of bits. -/
theorem Paced.min_eq (h : Paced l deadline interval remaining v) (hpositive : 0 < remaining) :
    min (nanos l.options.retryInterval) (signed64 (deadline - v.ticks)) =
      (min interval remaining : Nat) := by
  have hremaining := h.remaining_eq
  have hlt := h.remaining_lt
  rw [h.interval_eq, signed64_eq]
  omega

theorem acquireBy_of_free (hready : host.Ready l.path token v.scene)
    (htoken : token.isUtf8 = true)
    (hfree : v.scene.Free l.path l.options) (fuel attempt : Nat) :
    Ensures (server host (fun _ => True) False)
      (acquireBy l token timeout deadline (fuel + 1) attempt) v fun outcome v' =>
        outcome = .ok () ∧ v'.sleeps = v.sleeps ∧ v'.attempts = v.attempts + 1 := by
  rw [acquireBy_succ, Program.ensures_bind]
  apply (attemptOnce_of_free hready htoken hfree).mono
  rintro _ v' ⟨rfl, hsleeps, hattempts⟩
  apply (Vigil.log_ensures _ v').mono
  rintro _ _ ⟨rfl, rfl⟩
  exact ⟨rfl, hsleeps, hattempts⟩

theorem acquireBy_of_late (hready : host.Ready l.path token v.scene)
    (htoken : token.isUtf8 = true)
    (hfree : ¬ v.scene.Free l.path l.options) (hlate : deadline ≤ v.ticks) (fuel attempt : Nat) :
    Ensures (server host (fun _ => True) False)
      (acquireBy l token timeout deadline (fuel + 1) attempt) v fun outcome v' =>
        (∃ holder, outcome = .error (.lockTimeout l.path timeout holder)) ∧
          v' = { v with attempts := v.attempts + 1 } := by
  rw [acquireBy_succ, Program.ensures_bind]
  apply (attemptOnce_of_not_free hready htoken hfree).mono
  rintro _ _ ⟨rfl, rfl⟩
  refine ⟨trivial, ?_⟩
  rintro _ _ ⟨rfl, rfl⟩
  change Ensures _ (ite _ _ _) _ _
  rw [if_pos hlate]
  apply (Vigil.timeOut_ensures trivial timeout _).mono
  rintro _ _ ⟨rfl, e, rfl, hholder⟩
  obtain ⟨holder, rfl⟩ := hholder id
  exact ⟨⟨holder, rfl⟩, rfl⟩

/-- Before the deadline an attempt that fails is followed by a sleep, at most up to the deadline. -/
theorem acquireBy_of_early (hpaced : Paced l deadline interval remaining v)
    (hready : host.Ready l.path token v.scene) (htoken : token.isUtf8 = true)
    (hfree : ¬ v.scene.Free l.path l.options) (hremaining : 0 < remaining) {fuel attempt : Nat}
    {Q : Except Failure Unit → Vigil → Prop}
    (h : Ensures (server host (fun _ => True) False)
      (acquireBy l token timeout deadline fuel (attempt + 1))
      (Vigil.sleep host { v with attempts := v.attempts + 1 } (min interval remaining : Nat)) Q) :
    Ensures (server host (fun _ => True) False)
      (acquireBy l token timeout deadline (fuel + 1) attempt) v Q := by
  have hinterval := hpaced.interval_pos
  have hdeadline := hpaced.remaining_eq
  rw [acquireBy_succ, Program.ensures_bind]
  apply (attemptOnce_of_not_free hready htoken hfree).mono
  rintro _ _ ⟨rfl, rfl⟩
  refine ⟨trivial, ?_⟩
  rintro _ _ ⟨rfl, rfl⟩
  change Ensures _ (ite _ _ _) _ _
  rw [if_neg (by dsimp only; omega)]
  dsimp only
  rw [hpaced.min_eq hremaining]
  unfold wait
  rw [if_pos (by omega)]
  refine ⟨trivial, ?_⟩
  rintro _ _ rfl
  exact h

/-- What becomes of the scene does not depend on the number of attempts. -/
theorem wait_sleep_tried (host : Vigil.Host) (v : Vigil) (attempts : Nat) (first : Int)
    (rest : List Int) :
    (Vigil.sleep host { v with attempts } first).wait host rest =
      { v.wait host (first :: rest) with attempts } :=
  Vigil.wait_tried host (v.sleep host first) attempts rest

/-- While the lock may not be taken, nothing happens but one attempt and one sleep after another. -/
theorem acquireBy_of_not_free (hpaced : Paced l deadline interval remaining v)
    (htoken : token.isUtf8 = true) {fuel j : Nat} (hj : j ≤ (waits interval remaining).length)
    (hready : ∀ i < j,
      host.Ready l.path token (v.wait host ((waits interval remaining).take i)).scene)
    (hfree : ∀ i < j,
      ¬ (v.wait host ((waits interval remaining).take i)).scene.Free l.path l.options)
    (attempt : Nat) {Q : Except Failure Unit → Vigil → Prop}
    (h : Ensures (server host (fun _ => True) False)
      (acquireBy l token timeout deadline fuel (attempt + j))
      { v.wait host ((waits interval remaining).take j) with attempts := v.attempts + j } Q) :
    Ensures (server host (fun _ => True) False)
      (acquireBy l token timeout deadline (fuel + j) attempt) v Q := by
  induction j generalizing v remaining attempt with
  | zero => exact h
  | succ j ih =>
    have hpositive : 0 < remaining := by
      rw [Nat.pos_iff_ne_zero]
      rintro rfl
      rw [waits_zero] at hj
      cases hj
    have hready₀ := hready 0 (Nat.succ_pos j)
    have hfree₀ := hfree 0 (Nat.succ_pos j)
    have hwaits := waits_eq_cons hpaced.interval_pos hpositive
    generalize waits interval remaining = ms at hwaits hj hready hfree h
    subst hwaits
    apply acquireBy_of_early hpaced hready₀ htoken hfree₀ hpositive
    refine ih (hpaced.sleep _ _) (Nat.le_of_succ_le_succ hj) ?_ ?_ _ ?_
    . intro i hi
      rw [wait_sleep_tried]
      exact hready (i + 1) (Nat.succ_lt_succ hi)
    . intro i hi
      rw [wait_sleep_tried]
      exact hfree (i + 1) (Nat.succ_lt_succ hi)
    . rw [wait_sleep_tried, Nat.add_right_comm attempt]
      change Ensures _ _ { v.wait host _ with attempts := v.attempts + 1 + j } Q
      rw [Nat.add_right_comm v.attempts]
      exact h

theorem acquireBy_waits_out (hpaced : Paced l deadline interval remaining v)
    (htoken : token.isUtf8 = true) {fuel : Nat} (hfuel : (waits interval remaining).length < fuel)
    (hready : ∀ j ≤ (waits interval remaining).length,
      host.Ready l.path token (v.wait host ((waits interval remaining).take j)).scene)
    (hfree : ∀ j ≤ (waits interval remaining).length,
      ¬ (v.wait host ((waits interval remaining).take j)).scene.Free l.path l.options)
    (attempt : Nat) :
    Ensures (server host (fun _ => True) False) (acquireBy l token timeout deadline fuel attempt) v
      fun outcome v' => (∃ holder, outcome = .error (.lockTimeout l.path timeout holder)) ∧
        v' = { v.wait host (waits interval remaining) with
          attempts := v.attempts + (waits interval remaining).length + 1 } := by
  obtain ⟨rest, rfl⟩ := Nat.exists_eq_add_of_lt hfuel
  have hready' := hready _ (Nat.le_refl _)
  have hfree' := hfree _ (Nat.le_refl _)
  rw [List.take_length] at hready' hfree'
  rw [Nat.add_assoc, Nat.add_comm]
  apply acquireBy_of_not_free hpaced htoken (Nat.le_refl _)
    (fun i hi => hready i hi.le) fun i hi => hfree i hi.le
  rw [List.take_length]
  refine acquireBy_of_late ?_ htoken ?_ ?_ rest _
  . exact hready'
  . exact hfree'
  . have hdeadline := hpaced.remaining_eq
    change deadline ≤ (v.wait host (waits interval remaining)).ticks
    rw [Vigil.ticks_wait, sum_waits]
    omega

theorem acquireBy_takes (hpaced : Paced l deadline interval remaining v)
    (htoken : token.isUtf8 = true) {fuel j : Nat}
    (hfuel : (waits interval remaining).length < fuel)
    (hready : ∀ i ≤ (waits interval remaining).length,
      host.Ready l.path token (v.wait host ((waits interval remaining).take i)).scene)
    (hj : j ≤ (waits interval remaining).length)
    (hfree : (v.wait host ((waits interval remaining).take j)).scene.Free l.path l.options)
    (hfirst : ∀ i < j,
      ¬ (v.wait host ((waits interval remaining).take i)).scene.Free l.path l.options)
    (attempt : Nat) :
    Ensures (server host (fun _ => True) False) (acquireBy l token timeout deadline fuel attempt) v
      fun outcome v' => outcome = .ok () ∧
        v'.sleeps = v.sleeps ++ (waits interval remaining).take j ∧
          v'.attempts = v.attempts + j + 1 := by
  obtain ⟨rest, rfl⟩ := Nat.exists_eq_add_of_lt (Nat.lt_of_le_of_lt hj hfuel)
  rw [Nat.add_assoc, Nat.add_comm]
  apply acquireBy_of_not_free hpaced htoken hj (fun i hi => hready i (hi.le.trans hj)) hfirst
  rw [← Vigil.sleeps_wait host v]
  refine acquireBy_of_free ?_ htoken ?_ rest _
  . exact hready j hj
  . exact hfree

end Attempt

section Deadline

variable {host : Vigil.Host} {l : Lease} {v : Vigil} {timeout : Int}

theorem nanos_eq {millis : Int} (h : 0 ≤ millis) (hlt : millis * 1000000 < 2 ^ 63) :
    nanos millis = millis * 1000000 := by
  unfold nanos
  rw [signed64_eq]
  omega

/-- The clock can count up to the deadline, or else there is nothing to wait for. -/
theorem span_eq (hticks : 0 ≤ v.ticks) (hlimit : v.ticks < 2 ^ 63) (timeout : Int) :
    v.span timeout = if v.ticks + nanos timeout < 2 ^ 63 then (nanos timeout).toNat else 0 := by
  have hbounds : -2 ^ 63 ≤ nanos timeout ∧ nanos timeout < 2 ^ 63 := signed64_bounds _
  unfold Vigil.span
  rw [signed64_eq]
  split <;> split <;> omega

theorem span_eq_mul {timeout : Nat} (hticks : 0 ≤ v.ticks)
    (hlimit : v.ticks + (timeout : Int) * 1000000 < 2 ^ 63) :
    v.span timeout = timeout * 1000000 := by
  rw [span_eq hticks (by omega), nanos_eq (by omega) (by omega), if_pos hlimit]
  omega

theorem span_lt_of_beyond (hticks : 0 ≤ v.ticks) (hlimit : v.ticks < 2 ^ 63)
    (hbeyond : 2 ^ 63 ≤ v.ticks + timeout * 1000000) :
    v.span timeout < timeout * 1000000 ∧ (timeout * 1000000 < 2 ^ 63 → v.span timeout = 0) := by
  have hbounds : -2 ^ 63 ≤ nanos timeout ∧ nanos timeout < 2 ^ 63 := signed64_bounds _
  rw [span_eq hticks hlimit]
  by_cases hcounted : timeout * 1000000 < 2 ^ 63
  . rw [nanos_eq (by omega) hcounted, if_neg (by omega)]
    omega
  . split <;> omega

theorem paced_of_span (hticks : 0 ≤ v.ticks) (hlimit : v.ticks < 2 ^ 63)
    (hinterval : 0 < nanos l.options.retryInterval) (timeout : Int) (names : Nat) :
    Paced l (signed64 (v.ticks + nanos timeout)) (nanos l.options.retryInterval).toNat
      (v.span timeout) { v with names } where
  interval_eq := by omega
  interval_pos := by omega
  remaining_eq := rfl
  remaining_lt := by
    have hbounds : -2 ^ 63 ≤ nanos timeout ∧ nanos timeout < 2 ^ 63 := signed64_bounds _
    rw [span_eq hticks hlimit]
    split <;> omega

theorem length_waits_lt_maxAttempts (hticks : 0 ≤ v.ticks) (hlimit : v.ticks < 2 ^ 63)
    (hinterval : 0 < nanos l.options.retryInterval) (timeout : Int) :
    (waits (nanos l.options.retryInterval).toNat (v.span timeout)).length <
      l.maxAttempts timeout := by
  have hle := length_waits_le (nanos l.options.retryInterval).toNat (v.span timeout)
  have hspan : v.span timeout ≤ (nanos timeout).toNat := by
    rw [span_eq hticks hlimit]
    split
    . exact Nat.le_refl _
    . exact Nat.zero_le _
  have hdiv : v.span timeout / (nanos l.options.retryInterval).toNat ≤
      (nanos timeout).toNat / (nanos l.options.retryInterval).toNat := Nat.div_le_div_right hspan
  have hbound : (1 <<< 31 : Nat) = 2147483648 := rfl
  unfold maxAttempts
  rw [Nat.max_eq_left (by omega), hbound]
  omega

theorem acquire_waits_out (hticks : 0 ≤ v.ticks) (hlimit : v.ticks < 2 ^ 63)
    (hinterval : 0 < nanos l.options.retryInterval) (hheld : l.isHeld = false) {sleeps : List Int}
    (hsleeps : sleeps = waits (nanos l.options.retryInterval).toNat (v.span timeout))
    (hready : ∀ j ≤ sleeps.length,
      host.Ready l.path (host.name v.names) (v.wait host (sleeps.take j)).scene)
    (hfree : ∀ j ≤ sleeps.length,
      ¬ (v.wait host (sleeps.take j)).scene.Free l.path l.options) :
    Ensures (server host (fun _ => True) False) (l.acquire timeout) v fun outcome v' =>
      (∃ holder, outcome = .error (.lockTimeout l.path timeout holder)) ∧
        v'.sleeps = v.sleeps ++ sleeps ∧ v'.attempts = v.attempts + sleeps.length + 1 := by
  subst hsleeps
  have hfuel := length_waits_lt_maxAttempts hticks hlimit hinterval timeout
  have hpaced := paced_of_span hticks hlimit hinterval timeout (v.names + 1)
  refine (Vigil.acquire_ensures hheld fun _ =>
    acquireBy_waits_out hpaced (host.name_utf8 _) hfuel ?_ ?_ 1).mono ?_
  . intro j hj
    rw [Vigil.wait_named]
    exact hready j hj
  . intro j hj
    rw [Vigil.wait_named]
    exact hfree j hj
  . rintro _ _ ⟨_, rfl, ⟨holder, rfl⟩, rfl⟩
    exact ⟨⟨holder, rfl⟩, Vigil.sleeps_wait host _ _, rfl⟩

theorem acquire_takes (hticks : 0 ≤ v.ticks) (hlimit : v.ticks < 2 ^ 63)
    (hinterval : 0 < nanos l.options.retryInterval) (hheld : l.isHeld = false) {sleeps : List Int}
    (hsleeps : sleeps = waits (nanos l.options.retryInterval).toNat (v.span timeout))
    (hready : ∀ i ≤ sleeps.length,
      host.Ready l.path (host.name v.names) (v.wait host (sleeps.take i)).scene)
    {j : Nat} (hj : j ≤ sleeps.length)
    (hfree : (v.wait host (sleeps.take j)).scene.Free l.path l.options)
    (hfirst : ∀ i < j, ¬ (v.wait host (sleeps.take i)).scene.Free l.path l.options) :
    Ensures (server host (fun _ => True) False) (l.acquire timeout) v fun outcome v' =>
      outcome = .ok { l with token? := some (host.name v.names) } ∧
        v'.sleeps = v.sleeps ++ sleeps.take j ∧ v'.attempts = v.attempts + j + 1 := by
  subst hsleeps
  have hfuel := length_waits_lt_maxAttempts hticks hlimit hinterval timeout
  have hpaced := paced_of_span hticks hlimit hinterval timeout (v.names + 1)
  refine (Vigil.acquire_ensures hheld fun _ =>
    acquireBy_takes hpaced (host.name_utf8 _) hfuel ?_ hj ?_ ?_ 1).mono ?_
  . intro i hi
    rw [Vigil.wait_named]
    exact hready i hi
  . rw [Vigil.wait_named]
    exact hfree
  . intro i hi
    rw [Vigil.wait_named]
    exact hfirst i hi
  . rintro _ v' ⟨_, rfl, rfl, hwaited⟩
    exact ⟨rfl, hwaited⟩

end Deadline

/--
To take a lease where requests do not fail and time passes only in sleep. A lease that is held is
left alone. Else the sleeps are at most those that fill the time up to the deadline: as many
intervals as fit into it, and a shorter one for the rest. If the lock may not be taken at the start
nor at the end of any of them, then an attempt has been made at each of these times, and the lease
times out. If at one of them the lock may be taken for the first time, then the lease is taken
there.

The time up to the deadline is the timeout if the clock can count so far in nanoseconds. Else it is
shorter, and a timeout that could be counted by itself is not waited for at all.
-/
theorem acquire_waits_exactly (host : Vigil.Host) (l : Lease) (v : Vigil) (timeout : Int)
    (hticks : 0 ≤ v.ticks) (hlimit : v.ticks < 2 ^ 63)
    (hinterval : 0 < nanos l.options.retryInterval) (sleeps : List Int)
    (hsleeps : sleeps = waits (nanos l.options.retryInterval).toNat (v.span timeout))
    (hready : ∀ j ≤ sleeps.length,
      host.Ready l.path (host.name v.names) (v.wait host (sleeps.take j)).scene) :
    let scene := fun j => (v.wait host (sleeps.take j)).scene
    let outcome := ((l.acquire timeout).run (Vigil.serve host) v).1
    let v' := ((l.acquire timeout).run (Vigil.serve host) v).2
    (∀ t r : Nat, timeout = t → l.options.retryInterval = r → 0 < r →
      v.ticks + (t : Int) * 1000000 < 2 ^ 63 → (r : Int) * 1000000 < 2 ^ 63 →
        sleeps = (waits r t).map (· * 1000000) ∧ sleeps.length = (t + r - 1) / r ∧
          sleeps.sum = t * 1000000) ∧
    (2 ^ 63 ≤ v.ticks + timeout * 1000000 → sleeps.sum < timeout * 1000000 ∧
      (timeout * 1000000 < 2 ^ 63 → sleeps = [])) ∧
    (l.isHeld = true → outcome = .ok l ∧ v' = v) ∧
    (l.isHeld = false → (∀ j ≤ sleeps.length, ¬ (scene j).Free l.path l.options) →
      (∃ holder, outcome = .error (.lockTimeout l.path timeout holder)) ∧
        v'.sleeps = v.sleeps ++ sleeps ∧ v'.attempts = v.attempts + sleeps.length + 1) ∧
    (l.isHeld = false → ∀ j ≤ sleeps.length, (scene j).Free l.path l.options →
      (∀ i < j, ¬ (scene i).Free l.path l.options) →
        outcome = .ok { l with token? := some (host.name v.names) } ∧
          v'.sleeps = v.sleeps ++ sleeps.take j ∧ v'.attempts = v.attempts + j + 1) := by
  intro scene outcome v'
  refine ⟨?_, ?_, ?_, ?_, ?_⟩
  . rintro t r rfl hoption hr hcounted hcounted'
    have hscaled : sleeps = (waits r t).map (· * 1000000) := by
      rw [hsleeps, hoption, nanos_eq (by omega) hcounted', span_eq_mul hticks hcounted]
      exact waits_mul r t 1000000 (by decide)
    have hsum : (sleeps.sum : Int) = v.span t := by rw [hsleeps, sum_waits]
    rw [span_eq_mul hticks hcounted] at hsum
    refine ⟨hscaled, ?_, by exact_mod_cast hsum⟩
    rw [hscaled, List.length_map, length_waits hr]
  . intro hbeyond
    obtain ⟨hlt, hzero⟩ := span_lt_of_beyond hticks hlimit hbeyond
    refine ⟨?_, fun hcounted => ?_⟩
    . rw [hsleeps, sum_waits]
      exact hlt
    . rw [hsleeps, hzero hcounted, waits_zero]
  . intro hheld
    have hdone : l.acquire timeout = pure l := by
      rw [acquire, if_pos hheld]
    change ((l.acquire timeout).run _ v).1 = _ ∧ ((l.acquire timeout).run _ v).2 = _
    rw [hdone]
    exact ⟨rfl, rfl⟩
  . intro hheld hfree
    exact (acquire_waits_out hticks hlimit hinterval hheld hsleeps hready hfree).run
      (Vigil.serve_serves host False)
  . intro hheld j hj hfree hfirst
    exact (acquire_takes hticks hlimit hinterval hheld hsleeps hready hj hfree hfirst).run
      (Vigil.serve_serves host False)

/--
The holder of a lock is alive and gives it up during the second of three sleeps; the lease is taken
behind that sleep. If the holder keeps it, the lease times out behind the third one.
-/
theorem acquire_waits_exactly_for_living_holder :
    let path := ascii "x.lock"
    let content := Record.encode ⟨7, ascii "host", ascii "u", [], -100000⟩
    let l : Lease := .new path ⟨25, 10⟩
    let v : Vigil := ⟨⟨Files.set (fun _ => none) path (some content), lively⟩, 0, 0, 0, []⟩
    let patient : Vigil.Host := ⟨1, fun _ => ascii "t", fun _ => by decide, fun _ s => s⟩
    let yielding : Vigil.Host :=
      { patient with others := fun n s => if n = 2 then { s with files := fun _ => none } else s }
    ((l.acquire 25).run (Vigil.serve yielding) v).1 =
        .ok { l with token? := some (ascii "t") } ∧
      ((l.acquire 25).run (Vigil.serve yielding) v).2.sleeps = [10000000, 10000000] ∧
      (∃ holder, ((l.acquire 25).run (Vigil.serve patient) v).1 =
        .error (.lockTimeout path 25 holder)) ∧
      ((l.acquire 25).run (Vigil.serve patient) v).2.sleeps = [10000000, 10000000, 5000000] ∧
      ((l.acquire 25).run (Vigil.serve patient) v).2.attempts = 4 := by
  intro path content l v patient yielding
  have hkept : ∀ s : Scene, s.files path = some content → s.around.isAlive 7 = true →
      ¬ s.Free path l.options := by
    intro s hlock halive
    apply not_free_of_alive hlock
    rw [show (Record.decode content).pid = 7 by decide +kernel]
    exact halive
  have hsleeps : [10000000, 10000000, 5000000] =
      waits (nanos l.options.retryInterval).toNat (v.span 25) := by decide +kernel
  have hpatient := acquire_waits_exactly patient l v 25 (by decide) (by decide) (by decide +kernel)
    _ hsleeps (by
      intro j hj
      have hj : j ≤ 3 := hj
      interval_cases j <;> exact ⟨by decide +kernel, by decide +kernel, by decide +kernel⟩)
  have hyielding := acquire_waits_exactly yielding l v 25 (by decide) (by decide)
    (by decide +kernel) _ hsleeps (by
      intro j hj
      have hj : j ≤ 3 := hj
      interval_cases j <;> exact ⟨by decide +kernel, by decide +kernel, by decide +kernel⟩)
  obtain ⟨_, _, _, hout, _⟩ := hpatient
  obtain ⟨_, _, _, _, htakes⟩ := hyielding
  obtain ⟨hholder, hwaited, hattempts⟩ := hout rfl (by
    intro j hj
    have hj : j ≤ 3 := hj
    interval_cases j <;> exact hkept _ (by decide +kernel) (by decide +kernel))
  have hgone : (v.wait yielding [10000000, 10000000]).scene.files path = none := by
    decide +kernel
  have hfree : (v.wait yielding [10000000, 10000000]).scene.Free path l.options := by
    intro content' hlock
    rw [hgone] at hlock
    cases hlock
  obtain ⟨hok, hwaited', _⟩ := htakes rfl 2 (by decide) hfree (by
    intro i hi
    interval_cases i <;> exact hkept _ (by decide +kernel) (by decide +kernel))
  exact ⟨hok, hwaited', hholder, hwaited, hattempts⟩

/--
With a timeout of more nanoseconds than can be counted the lease is given up at once, though the
holder of the lock would give it up during the first sleep.
-/
theorem acquire_gives_up_at_once :
    let path := ascii "x.lock"
    let content := Record.encode ⟨7, ascii "host", ascii "u", [], -100000⟩
    let l : Lease := .new path ⟨25, 10⟩
    let v : Vigil := ⟨⟨Files.set (fun _ => none) path (some content), lively⟩, 0, 0, 0, []⟩
    let yielding : Vigil.Host :=
      ⟨1, fun _ => ascii "t", fun _ => by decide, fun _ s => { s with files := fun _ => none }⟩
    (v.wait yielding [10000000]).scene.files path = none ∧
      (∃ holder, ((l.acquire 9223372036855).run (Vigil.serve yielding) v).1 =
        .error (.lockTimeout path 9223372036855 holder)) ∧
      ((l.acquire 9223372036855).run (Vigil.serve yielding) v).2.sleeps = [] := by
  intro path content l v yielding
  have hsleeps : [] = waits (nanos l.options.retryInterval).toNat (v.span 9223372036855) := by
    decide +kernel
  have hready : ∀ j ≤ ([] : List Int).length,
      yielding.Ready l.path (yielding.name v.names) (v.wait yielding ([].take j)).scene := by
    intro j hj
    obtain rfl : j = 0 := Nat.le_zero.mp hj
    exact ⟨by decide +kernel, by decide +kernel, by decide +kernel⟩
  have hfree : ∀ j ≤ ([] : List Int).length,
      ¬ (v.wait yielding ([].take j)).scene.Free l.path l.options := by
    intro j hj
    obtain rfl : j = 0 := Nat.le_zero.mp hj
    refine not_free_of_alive (?_ : _ = some content) ?_
    . decide +kernel
    . decide +kernel
  obtain ⟨hholder, hsleeps', _⟩ :=
    (acquire_waits_out (by decide) (by decide) (by decide +kernel) rfl hsleeps hready hfree).run
      (Vigil.serve_serves yielding False)
  exact ⟨by decide +kernel, hholder, hsleeps'⟩

end SchemaMigration.Lease

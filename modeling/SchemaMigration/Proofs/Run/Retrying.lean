import Mathlib.Algebra.Order.Ring.Int
import SchemaMigration.Machine.Machine
import SchemaMigration.Proofs.Machine.Paths
import SchemaMigration.Proofs.Observation
import SchemaMigration.Run.Connection

/-!
This module contains how often a connection is tried and how long the pauses between the attempts
are, given what the database replies to each of them.
-/

namespace SchemaMigration

theorem Text.occursIn_iff {needle t : Text} : needle.occursIn t ↔ needle <:+: t := by
  induction t with
  | nil => simp [Text.occursIn]
  | cons b rest ih => simp [Text.occursIn, ih, List.infix_cons_iff]

namespace Failure

theorem infix_noConnectionMessage (cause : Text) (attempts : Nat) :
    cause <:+: noConnectionMessage cause attempts ∧
      Text.ofNat attempts <:+: noConnectionMessage cause attempts := by
  unfold noConnectionMessage
  constructor
  . rw [List.append_assoc, List.append_assoc]
    exact List.infix_append _ _ _
  . exact List.infix_append _ _ _

end Failure

namespace Connection

/-- Sleeps as long as it is told to, even if this is no time at all. -/
def sleep (millis : Int) : Program World Failure Unit := World.call (.sleep millis)

structure Attempts where
  count : Nat
  pauses : List Int
  deriving DecidableEq, Repr

/--
A database that replies to each attempt to connect as it is told to; the first attempt has the
number one. The other replies do not matter.
-/
def serve (replies : Nat → Except Text Unit) (others : (r : World.Request) → World.Reply r) :
    (r : World.Request) → Attempts → World.Reply r × Attempts
  | .connect, s => (replies (s.count + 1), { s with count := s.count + 1 })
  | .sleep millis, s => ((), { s with pauses := s.pauses ++ [millis] })
  | r, s => (others r, s)

/-- There is nothing to wait for behind a success or a failure that does not pass. -/
def Settles : Except Text Unit → Prop
  | .ok () => True
  | .error text => ∀ sign ∈ transientSigns, ¬ sign <:+: text.lower

theorem settles_error_iff {text : Text} : Settles (.error text) ↔ ¬ isTransient text := by
  simp [Settles, isTransient, Text.occursIn_iff]

/-- The first attempt whose reply settles it, or which is the last one that is allowed. -/
structure IsLastAttempt (replies : Nat → Except Text Unit) (limit attempt : Nat) : Prop where
  pos : 1 ≤ attempt
  settles : Settles (replies attempt) ∨ attempt = limit
  first : ∀ i, 1 ≤ i → i < attempt → ¬ Settles (replies i) ∧ i ≠ limit

section Delay

variable {baseDelay : Int} (hbase : 0 ≤ baseDelay) (hlimit : baseDelay < 2 ^ 32)

include hbase

theorem delay_mono {i k : Nat} (h : i ≤ k) :
    baseDelay * 2 ^ min (i - 1) 20 ≤ baseDelay * 2 ^ min (k - 1) 20 := by
  apply Int.mul_le_mul_of_nonneg_left _ hbase
  have hexponent : min (i - 1) 20 ≤ min (k - 1) 20 := by omega
  exact_mod_cast Nat.pow_le_pow_right (by decide) hexponent

include hlimit

/-- The delays stay far below the limit of signed numbers of sixty-four bits. -/
theorem delay_lt (i : Nat) :
    0 ≤ baseDelay * 2 ^ min (i - 1) 20 ∧ baseDelay * 2 ^ min (i - 1) 20 < 2 ^ 52 := by
  have hpow : (2 : Int) ^ min (i - 1) 20 ≤ 2 ^ 20 := by
    exact_mod_cast Nat.pow_le_pow_right (by decide) (Nat.min_le_right (i - 1) 20)
  have hpos : (0 : Int) < 2 ^ min (i - 1) 20 := Int.pow_pos (by decide)
  constructor
  . exact Int.mul_nonneg hbase (Int.le_of_lt hpos)
  . calc baseDelay * 2 ^ min (i - 1) 20
      _ ≤ baseDelay * 2 ^ 20 := Int.mul_le_mul_of_nonneg_left hpow hbase
      _ < 2 ^ 52 := by omega

theorem delay_eq (i : Nat) : delay baseDelay i = baseDelay * 2 ^ min (i - 1) 20 := by
  have hrange := delay_lt hbase hlimit i
  unfold delay
  rw [Nat.one_shiftLeft, Nat.one_shiftLeft]
  push_cast
  apply Int.bmod_eq_of_le
  . omega
  . omega

end Delay

section Run

variable {policy : Policy} {replies : Nat → Except Text Unit}
  (others : (r : World.Request) → World.Reply r)

theorem tryConnect_run_of_ok {s : Attempts} (h : replies (s.count + 1) = .ok ()) :
    (tryConnect (s.count + 1)).run (serve replies others) s =
      (.ok none, { s with count := s.count + 1 }) := by
  have hcall : (World.call .connect : Program World Failure _).run (serve replies others) s =
      (.ok (replies (s.count + 1)), { s with count := s.count + 1 }) := rfl
  unfold tryConnect
  rw [Program.run_bind_of_ok hcall, h]
  dsimp only
  split
  . rfl
  . rfl

theorem tryConnect_run_of_error {s : Attempts} {text : Text}
    (h : replies (s.count + 1) = .error text) (htext : 0 ∉ text) :
    (tryConnect (s.count + 1)).run (serve replies others) s =
      (.ok (some text), { s with count := s.count + 1 }) := by
  have hcall : (World.call .connect : Program World Failure _).run (serve replies others) s =
      (.ok (replies (s.count + 1)), { s with count := s.count + 1 }) := rfl
  unfold tryConnect
  rw [Program.run_bind_of_ok hcall, h]
  dsimp only
  rw [Text.beforeNul_eq_self htext]
  rfl

variable (hreplies : ∀ i text, replies i = .error text → 0 ∉ text)

include hreplies

theorem connectFrom_run_of_last {remaining : Nat} {s : Attempts}
    (h : Settles (replies (s.count + 1)) ∨ remaining = 0) :
    (connectFrom policy sleep remaining (s.count + 1)).run (serve replies others) s =
      ((replies (s.count + 1)).mapError (.noConnection · (s.count + 1)),
        { s with count := s.count + 1 }) := by
  cases hreply : replies (s.count + 1) with
  | ok _ =>
    cases remaining with
    | zero => exact Program.run_bind_of_ok (tryConnect_run_of_ok others hreply) _
    | succ remaining => exact Program.run_bind_of_ok (tryConnect_run_of_ok others hreply) _
  | error text =>
    have htry := tryConnect_run_of_error others hreply (hreplies _ text hreply)
    cases remaining with
    | zero => exact Program.run_bind_of_ok htry _
    | succ remaining =>
      rw [hreply, settles_error_iff] at h
      unfold connectFrom
      rw [Program.run_bind_of_ok htry]
      dsimp only
      rw [if_neg (h.resolve_right nofun)]
      rfl

theorem connectFrom_run_of_not_settles {remaining : Nat} {s : Attempts}
    (h : ¬ Settles (replies (s.count + 1))) :
    (connectFrom policy sleep (remaining + 1) (s.count + 1)).run (serve replies others) s =
      (connectFrom policy sleep remaining (s.count + 1 + 1)).run (serve replies others)
        ⟨s.count + 1, s.pauses ++ [delay policy.baseDelay (s.count + 1)]⟩ := by
  cases hreply : replies (s.count + 1) with
  | ok _ =>
    rw [hreply] at h
    exact absurd trivial h
  | error text =>
    have htry := tryConnect_run_of_error others hreply (hreplies _ text hreply)
    rw [hreply, settles_error_iff, not_not] at h
    rw [connectFrom, Program.run_bind_of_ok htry]
    dsimp only
    rw [if_pos h]
    rfl

/--
The attempts behind those that were made: how many of them fail in a way that may pass before the
last one.
-/
theorem connectFrom_run (remaining : Nat) (s : Attempts) :
    ∃ failed ≤ remaining, (∀ i < failed, ¬ Settles (replies (s.count + 1 + i))) ∧
      (Settles (replies (s.count + 1 + failed)) ∨ failed = remaining) ∧
      (connectFrom policy sleep remaining (s.count + 1)).run (serve replies others) s =
        ((replies (s.count + 1 + failed)).mapError (.noConnection · (s.count + 1 + failed)),
          ⟨s.count + 1 + failed,
            s.pauses ++ (List.range' (s.count + 1) failed).map (delay policy.baseDelay)⟩) := by
  induction remaining generalizing s with
  | zero =>
    refine ⟨0, Nat.le_refl _, nofun, .inr rfl, ?_⟩
    rw [connectFrom_run_of_last others hreplies (.inr rfl), List.range'_zero, List.map_nil,
      List.append_nil, Nat.add_zero]
  | succ remaining ih =>
    by_cases hsettles : Settles (replies (s.count + 1))
    . refine ⟨0, Nat.zero_le _, nofun, .inl hsettles, ?_⟩
      rw [connectFrom_run_of_last others hreplies (.inl hsettles), List.range'_zero, List.map_nil,
        List.append_nil, Nat.add_zero]
    . -- The record so far is general in the induction, so it can hold this attempt and its pause.
      obtain ⟨failed, hfailed, hpassing, hlast, hrun⟩ :=
        ih ⟨s.count + 1, s.pauses ++ [delay policy.baseDelay (s.count + 1)]⟩
      have hcount : s.count + 1 + 1 + failed = s.count + 1 + (failed + 1) := by omega
      dsimp only at hpassing hlast hrun
      rw [hcount] at hlast hrun
      refine ⟨failed + 1, by omega, ?_, ?_, ?_⟩
      . intro i hi
        cases i with
        | zero => exact hsettles
        | succ i =>
          rw [← Nat.add_assoc, Nat.add_right_comm]
          exact hpassing i (by omega)
      . exact hlast.imp_right (congrArg (· + 1))
      . rw [connectFrom_run_of_not_settles others hreplies hsettles, hrun, List.range'_succ,
          List.map_cons, List.append_assoc, List.singleton_append]

end Run

/-- Between attempts there is always something to wait for, unless the first delay is none. -/
theorem connect_pause {policy : Policy} (hbase : 0 < policy.baseDelay)
    (hlimit : policy.baseDelay < 2 ^ 32) : connect policy World.pause = connect policy sleep := by
  have hpause : ∀ attempt, World.pause (delay policy.baseDelay attempt) =
      sleep (delay policy.baseDelay attempt) := by
    intro attempt
    have hpos : 0 < delay policy.baseDelay attempt := by
      rw [delay_eq (Int.le_of_lt hbase) hlimit]
      exact Int.mul_pos hbase (Int.pow_pos (by decide))
    exact if_pos hpos
  have hfrom : ∀ remaining attempt, connectFrom policy World.pause remaining attempt =
      connectFrom policy sleep remaining attempt := by
    intro remaining
    induction remaining with
    | zero => exact fun _ => rfl
    | succ remaining ih =>
      intro attempt
      simp only [connectFrom, hpause, ih]
  exact hfrom _ _

/--
The last attempt is the first one that succeeds, fails in a way that does not pass, or is the last
one allowed. Its reply decides the outcome. The pauses before it double up to the twenty-first.
-/
theorem connect_run_of_replies (policy : Policy) (replies : Nat → Except Text Unit)
    (others : (r : World.Request) → World.Reply r) (hattempts : policy.maxAttempts < 2 ^ 32)
    (hbase : 0 ≤ policy.baseDelay) (hlimit : policy.baseDelay < 2 ^ 32)
    (hreplies : ∀ i text, replies i = .error text → 0 ∉ text) :
    ∃ last pauses, IsLastAttempt replies (max policy.maxAttempts 1) last ∧ last < 2 ^ 32 ∧
      pauses = (List.range' 1 (last - 1)).map (fun i => policy.baseDelay * 2 ^ min (i - 1) 20) ∧
      (∀ millis ∈ pauses, 0 ≤ millis ∧ millis < 2 ^ 63) ∧ pauses.Pairwise (· ≤ ·) ∧
      (connect policy sleep).run (serve replies others) ⟨0, []⟩ =
        ((replies last).mapError (.noConnection · last), ⟨last, pauses⟩) ∧
      (0 < policy.baseDelay → connect policy World.pause = connect policy sleep) ∧
      ∀ text, (Failure.noConnection text last).kind = .connection ∧
        text <:+: (Failure.noConnection text last).message ∧
        Text.ofNat last <:+: (Failure.noConnection text last).message := by
  obtain ⟨failed, hfailed, hpassing, hlast, hrun⟩ :=
    connectFrom_run others hreplies (policy.maxAttempts - 1) ⟨0, []⟩
  have hpauses : (List.range' 1 failed).map (delay policy.baseDelay) =
      (List.range' 1 failed).map (fun i => policy.baseDelay * 2 ^ min (i - 1) 20) := by
    apply List.map_congr_left
    intro i _
    exact delay_eq hbase hlimit i
  dsimp only at hpassing hlast hrun
  rw [Nat.zero_add] at hpassing hlast hrun
  rw [hpauses, List.nil_append, Nat.add_comm 1 failed] at hrun
  rw [Nat.add_comm 1 failed] at hlast
  have hcarries := fun text => Failure.infix_noConnectionMessage text (failed + 1)
  refine ⟨failed + 1, _, ⟨Nat.le_add_left _ _, ?_, ?_⟩, by omega, rfl, ?_, ?_, hrun,
    fun hpos => connect_pause hpos hlimit, fun text => ⟨rfl, hcarries text⟩⟩
  . apply hlast.imp_right
    omega
  . intro i hpos hi
    refine ⟨?_, by omega⟩
    obtain ⟨i, rfl⟩ := Nat.exists_eq_add_of_le hpos
    exact hpassing i (by omega)
  . intro millis hmillis
    obtain ⟨i, _, rfl⟩ := List.mem_map.mp hmillis
    have hrange := delay_lt hbase hlimit i
    omega
  . rw [List.pairwise_map]
    apply List.Pairwise.imp _ List.pairwise_le_range'
    intro i k hik
    exact delay_mono hbase hik

/-- The third attempt succeeds. -/
theorem connect_run_of_two_timeouts :
    let policy : Policy := ⟨5, 100⟩
    let replies : Nat → Except Text Unit := fun i =>
      if i < 3 then .error (ascii "Connection Timeout") else .ok ()
    let m : Machine :=
      ⟨⟨.empty⟩, 0, 0, none, 1, [], [], 0, ⟨.off, false, false⟩, .none, .none, .none⟩
    let others : (r : World.Request) → World.Reply r := fun r => (Machine.serve r m).1
    policy.maxAttempts < 2 ^ 32 ∧ 0 ≤ policy.baseDelay ∧ policy.baseDelay < 2 ^ 32 ∧
      (∀ i text, replies i = .error text → 0 ∉ text) ∧
      ∃ last pauses, IsLastAttempt replies 5 last ∧
        (connect policy sleep).run (serve replies others) ⟨0, []⟩ =
          ((replies last).mapError (.noConnection · last), ⟨last, pauses⟩) := by
  intro policy replies m others
  have hreplies : ∀ i text, replies i = .error text → 0 ∉ text := by
    intro i text h
    dsimp only [replies] at h
    split at h
    . cases h
      decide
    . cases h
  obtain ⟨last, pauses, hlast, _, _, _, _, hrun, _⟩ :=
    connect_run_of_replies policy replies others (by decide) (by decide) (by decide) hreplies
  exact ⟨by decide, by decide, by decide, hreplies, last, pauses, hlast, hrun⟩

end Connection

end SchemaMigration

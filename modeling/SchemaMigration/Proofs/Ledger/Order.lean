import Mathlib.Data.List.Induction
import Mathlib.Logic.Function.Basic
import Mathlib.Logic.Relation
import SchemaMigration.Proofs.Ledger.Atomicity

/-!
This module contains the order in which a ledger keeps its entries: batch behind batch, with the
newest batch last. Every operation keeps this order, in the ledger file and in the ledgers that
share it, as long as there are batch numbers left.
-/

namespace SchemaMigration.Ledger

open Program (Exec)

namespace State

/-- Complete entries of different migrations, batch behind batch, up to the newest batch. -/
structure Ordered (s : State) : Prop where
  distinct : s.files.Nodup
  complete : ∀ e ∈ s.entries, e.file ≠ [] ∧ e.hash ≠ []
  positive : ∀ e ∈ s.entries, 1 ≤ e.batch
  sorted : s.entries.Pairwise fun e e' => e.batch ≤ e'.batch
  current : s.currentBatch = (s.entries.getLast?.map (·.batch)).getD 0

theorem newestBatch_concat (entries : List Entry) (e : Entry) :
    newestBatch (entries ++ [e]) = max (newestBatch entries) e.batch := by
  simp [newestBatch]

theorem newestBatch_le {entries : List Entry} {n : Int} (hn : 0 ≤ n)
    (h : ∀ e ∈ entries, e.batch ≤ n) : newestBatch entries ≤ n := by
  induction entries using List.reverseRecOn with
  | nil => exact hn
  | append_singleton entries e ih =>
    have hentries := ih fun e' he' => h e' (List.mem_append_left _ he')
    have he := h e List.mem_concat_self
    rw [newestBatch_concat]
    omega

theorem newestBatch_of_sorted {entries : List Entry} (hpositive : ∀ e ∈ entries, 1 ≤ e.batch)
    (hsorted : entries.Pairwise fun e e' => e.batch ≤ e'.batch) :
    newestBatch entries = (entries.getLast?.map (·.batch)).getD 0 := by
  cases entries.eq_nil_or_concat with
  | inl hnil =>
    subst hnil
    rfl
  | inr hconcat =>
    obtain ⟨older, last, rfl⟩ := hconcat
    rw [List.concat_eq_append] at hpositive hsorted ⊢
    have hlast := hpositive last List.mem_concat_self
    have holder : newestBatch older ≤ last.batch := by
      apply newestBatch_le (by omega)
      intro e he
      exact (List.pairwise_append.mp hsorted).2.2 e he last (List.mem_singleton_self last)
    rw [newestBatch_concat, Int.max_eq_right holder, List.getLast?_concat]
    rfl

namespace Ordered

variable {s : State}

theorem empty : Ordered .empty where
  distinct := List.nodup_nil
  complete := nofun
  positive := nofun
  sorted := .nil
  current := rfl

theorem batch_le (h : s.Ordered) : ∀ e ∈ s.entries, e.batch ≤ s.currentBatch := by
  intro e he
  rw [h.current]
  cases s.entries.eq_nil_or_concat with
  | inl hnil =>
    rw [hnil] at he
    cases he
  | inr hconcat =>
    obtain ⟨older, last, hentries⟩ := hconcat
    have hsorted := h.sorted
    rw [hentries, List.concat_eq_append] at he hsorted ⊢
    rw [List.getLast?_concat]
    cases List.mem_append.mp he with
    | inl holder =>
      exact (List.pairwise_append.mp hsorted).2.2 e holder last (List.mem_singleton_self last)
    | inr hlast =>
      rw [List.mem_singleton.mp hlast]
      exact Int.le_refl _

theorem zero_le_currentBatch (h : s.Ordered) : 0 ≤ s.currentBatch := by
  cases hentries : s.entries with
  | nil => simp [h.current, hentries]
  | cons e entries =>
    have he : e ∈ s.entries := hentries ▸ List.mem_cons_self
    have hpositive := h.positive e he
    have hle := h.batch_le e he
    omega

theorem fault?_eq_none (h : s.Ordered) : s.fault? = none := by
  apply fault?_eq_none_iff.mpr
  refine ⟨h.distinct, ?_, ?_⟩
  . intro e he
    exact ⟨(h.complete e he).1, (h.complete e he).2, h.positive e he, h.batch_le e he⟩
  . rw [newestBatch_of_sorted h.positive h.sorted, h.current]

theorem without (h : s.Ordered) (drop : Entry → Bool) : (s.without drop).Ordered where
  distinct := h.distinct.sublist (files_without_sublist s drop)
  complete e he := h.complete e (List.mem_of_mem_filter he)
  positive e he := h.positive e (List.mem_of_mem_filter he)
  sorted := h.sorted.filter _
  current :=
    newestBatch_of_sorted (fun e he => h.positive e (List.mem_of_mem_filter he)) (h.sorted.filter _)

end Ordered

/-- The largest batch number: the next one no longer fits into 32 bits. -/
def maxBatch : Int := 2147483647

theorem signed32_succ {n : Int} (hn : 0 ≤ n) (hlt : n < maxBatch) : signed32 (n + 1) = n + 1 := by
  unfold maxBatch at hlt
  rw [signed32_eq]
  omega

theorem contentHash_ne_nil (content : Text) : Digest.contentHash content ≠ [] := by
  simp [Digest.contentHash, Digest.sha256, Digest.State.words, Digest.wordBytes, Text.hex,
    Text.hexByte]

theorem withBatch_eq {s : State} (hs : 0 ≤ s.currentBatch) (hbatch : s.currentBatch < maxBatch)
    (files : List MigrationFile) (appliedAt : Text) :
    s.withBatch files appliedAt =
      ⟨s.entries ++ files.map fun f => ⟨f.name, f.hash, appliedAt, s.currentBatch + 1⟩,
        s.currentBatch + 1⟩ := by
  unfold withBatch
  rw [signed32_succ hs hbatch]

theorem Ordered.withBatch {s : State} (h : s.Ordered) (hbatch : s.currentBatch < maxBatch)
    {files : List MigrationFile} (hne : files ≠ []) (hnamed : ∀ f ∈ files, f.name ≠ [])
    (hfresh : Fresh id s.files (files.map (·.name))) (appliedAt : Text) :
    (s.withBatch files appliedAt).Ordered := by
  have hnodup := nodup_withBatch h.distinct hfresh appliedAt
  rw [withBatch_eq h.zero_le_currentBatch hbatch] at hnodup ⊢
  constructor
  . exact hnodup
  . intro e he
    cases List.mem_append.mp he with
    | inl hold => exact h.complete e hold
    | inr hnew =>
      obtain ⟨f, hf, rfl⟩ := List.mem_map.mp hnew
      exact ⟨hnamed f hf, contentHash_ne_nil f.content⟩
  . intro e he
    cases List.mem_append.mp he with
    | inl hold => exact h.positive e hold
    | inr hnew =>
      obtain ⟨f, _, rfl⟩ := List.mem_map.mp hnew
      have := h.zero_le_currentBatch
      dsimp only
      omega
  . apply List.pairwise_append.mpr
    refine ⟨h.sorted, ?_, ?_⟩
    . apply List.pairwise_map.mpr
      exact List.pairwise_of_forall fun _ _ => Int.le_refl _
    . intro e he e' he'
      obtain ⟨f, _, rfl⟩ := List.mem_map.mp he'
      have := h.batch_le e he
      dsimp only
      omega
  . obtain ⟨older, last, rfl⟩ := (files.eq_nil_or_concat).resolve_left hne
    simp

/-- The entries up to a batch number are those of older batches, and then those of this one. -/
theorem exists_split_of_sorted {entries : List Entry} {n : Int}
    (hsorted : entries.Pairwise fun e e' => e.batch ≤ e'.batch) (hle : ∀ e ∈ entries, e.batch ≤ n) :
    ∃ older newest, entries = older ++ newest ∧ (∀ e ∈ older, e.batch ≠ n) ∧
      ∀ e ∈ newest, e.batch = n := by
  induction entries with
  | nil => exact ⟨[], [], rfl, nofun, nofun⟩
  | cons e entries ih =>
    rw [List.pairwise_cons] at hsorted
    rw [List.forall_mem_cons] at hle
    by_cases he : e.batch = n
    . -- All that follows is between the batch of `e` and `n`.
      refine ⟨[], e :: entries, rfl, nofun, List.forall_mem_cons.mpr ⟨he, ?_⟩⟩
      intro e' he'
      have hlower := hsorted.1 e' he'
      have hupper := hle.2 e' he'
      omega
    . obtain ⟨older, newest, rfl, holder, hnewest⟩ := ih hsorted.2 hle.2
      exact ⟨e :: older, newest, rfl, List.forall_mem_cons.mpr ⟨he, holder⟩, hnewest⟩

theorem Ordered.lastBatch {s : State} (h : s.Ordered) :
    ∃ older newest, s.entries = older ++ newest ∧ (∀ e ∈ older, e.batch ≠ s.currentBatch) ∧
      (∀ e ∈ newest, e.batch = s.currentBatch) ∧ s.lastBatch = newest.reverse := by
  obtain ⟨older, newest, hentries, holder, hnewest⟩ := exists_split_of_sorted h.sorted h.batch_le
  refine ⟨older, newest, hentries, holder, hnewest, ?_⟩
  unfold State.lastBatch
  split
  . next hzero =>
    -- Then there are no entries at all, since batches are counted from one.
    cases newest with
    | nil => rfl
    | cons e newest =>
      have hpositive := h.positive e (by rw [hentries]; simp)
      have he := hnewest e List.mem_cons_self
      omega
  . rw [hentries, List.reverse_append, List.filter_append]
    rw [List.filter_eq_self.mpr, List.filter_eq_nil_iff.mpr, List.append_nil]
    . intro e he
      simpa using holder e (List.mem_reverse.mp he)
    . intro e he
      simpa using hnewest e (List.mem_reverse.mp he)

end State

def Operation.Named : Operation → Prop
  | .mutate (.record files) => ∀ f ∈ files, f.name ≠ []
  | _ => True

theorem Operation.Writes.ordered {o : Operation} {old new : State} (h : o.Writes old new)
    (hnamed : o.Named) (hbatch : old.currentBatch < State.maxBatch) (hold : old.Ordered) :
    new.Ordered := by
  cases h with
  | probe => exact hold
  | mutate h =>
    cases h with
    | record appliedAt hne hfresh => exact hold.withBatch hbatch hne hnamed hfresh appliedAt
    | rollBack => exact hold.without _
    | remove => exact hold.without _

def Kept (path : Path) (content? : Option Text) : Prop :=
  ∃ s, decodeFile path content? = .ok s ∧ s.Ordered

section Calls

variable {path : Path} {o : Operation} {start? written? : Option Text} {l l' : Ledger}

def Below (path : Path) (content? : Option Text) : Prop :=
  ∀ s, decodeFile path content? = .ok s → s.currentBatch < State.maxBatch

theorem Kept.ordered (h : Kept path start?) {s : State} (hs : decodeFile path start? = .ok s) :
    s.Ordered := by
  obtain ⟨s', hs', hordered⟩ := h
  rw [hs] at hs'
  cases hs'
  exact hordered

theorem kept_encode {s : State} (hrange : s.InRange) (hutf8 : s.Utf8) (h : s.Ordered) :
    Kept path (some s.encode) :=
  ⟨s, decodeFile_encode hrange hutf8 h.fault?_eq_none, h⟩

theorem Turn.kept (h : Turn path o start? written?) (hnamed : o.Named)
    (hbelow : Below path start?) (hstart : Kept path start?) :
    Kept path (Visit.content? ⟨start?, written?⟩) := by
  cases h with
  | nothing => exact hstart
  | state hdecode hwrites =>
    have hnew := hwrites.ordered hnamed (hbelow _ hdecode) (hstart.ordered hdecode)
    exact kept_encode (hwrites.inRange (inRange_of_decodeFile hdecode))
      (hwrites.utf8 (utf8_of_decodeFile hdecode)) hnew

/-- An operation leaves the ledger file in order, and also the ledger itself. -/
theorem Session.Ends.kept {faults : Failure → Prop} {outcome : Except Failure Ledger}
    {session : Session} {content?' : Option Text} (h : Session.Ends path o faults l outcome session)
    (hsees : session.Sees start? content?') (hnamed : o.Named) (hbelow : Below path start?)
    (hstart : Kept path start?) (hl : l.state.Ordered) :
    Kept path content?' ∧ (l.settle outcome).state.Ordered := by
  cases h with
  | refused e =>
    cases hsees
    exact ⟨hstart, hl⟩
  | skipped =>
    cases hsees
    exact ⟨hstart, hl⟩
  | failed hturn =>
    obtain ⟨rfl, rfl⟩ := hsees
    exact ⟨hturn.kept hnamed hbelow hstart, hl⟩
  | probed ho hdecode =>
    obtain ⟨rfl, rfl⟩ := hsees
    have hturn := Turn.state hdecode (.probe _)
    exact ⟨(ho ▸ hturn).kept hnamed hbelow hstart, hl⟩
  | read hreads hdecode =>
    obtain ⟨rfl, rfl⟩ := hsees
    exact ⟨hstart, hstart.ordered hdecode⟩
  | wrote ho hdecode hwrites =>
    subst ho
    obtain ⟨rfl, rfl⟩ := hsees
    refine ⟨(Turn.state hdecode (.mutate hwrites)).kept hnamed hbelow hstart, ?_⟩
    exact (Operation.Writes.mutate hwrites).ordered hnamed (hbelow _ hdecode)
      (hstart.ordered hdecode)

end Calls

structure Desk (ι : Type) where
  files : Files
  state : ι → State

namespace Desk

variable {ι : Type} [DecidableEq ι] {path : Path} {s s' : Desk ι}

/--
One ledger does one operation, which may fail, and has a new state in memory then or the same one.
Others may change all files meanwhile but the ledger file and the temporary files beside it.
-/
inductive Call (path : Path) : Desk ι → Desk ι → Prop
  | call {s : Desk ι} {i : ι} {o : Operation} {options : Lease.Options}
    {result : Except Failure Ledger} {l : Ledger} {files : Files} (hnamed : o.Named)
    (hbelow : Below path (s.files path))
    (hexec : Exec (World.server (File.Owns path))
      (Ledger.call ⟨path, s.state i⟩ options (o.program ·)) s.files (.ok (result, l)) files) :
    Call path s ⟨files, Function.update s.state i l.state⟩

structure Ordered (path : Path) (s : Desk ι) : Prop where
  file : Kept path (s.files path)
  state : ∀ i, (s.state i).Ordered

theorem Ordered.call (h : s.Ordered path) (hcall : Call path s s') : s'.Ordered path := by
  cases hcall with
  | @call i o options result l files hnamed hbelow hexec =>
    obtain ⟨_, houtcome, session, hsees, hends⟩ := ends_of_call (l := ⟨path, s.state i⟩) hexec
    cases houtcome
    obtain ⟨hfile, hstate⟩ := hends.kept hsees hnamed hbelow h.file (h.state i)
    refine ⟨hfile, ?_⟩
    apply (Function.forall_update_iff s.state fun _ state => state.Ordered).mpr
    exact ⟨hstate, fun j _ => h.state j⟩

def initial (files : Files) : Desk ι := ⟨files, fun _ => .empty⟩

theorem Ordered.calls {files : Files} (habsent : files path = none)
    (hcalls : Relation.ReflTransGen (Call path) (initial files) s) : s.Ordered path := by
  induction hcalls with
  | refl =>
    refine ⟨⟨.empty, ?_, .empty⟩, fun _ => .empty⟩
    change decodeFile path (files path) = _
    rw [habsent]
    rfl
  | tail _ hcall ih => exact ih.call hcall

/--
Behind any operations of any ledgers that share a ledger file, be they successful or not, the file
can be read, and its state and those of all ledgers are in order. The newest batch stands at the
end, and is what is to be rolled back, from the end on.
-/
theorem ordered_of_calls {files : Files} (habsent : files path = none)
    (hcalls : Relation.ReflTransGen (Call path) (initial files) s) :
    (∃ state, decodeFile path (s.files path) = .ok state) ∧
      ∀ state, (decodeFile path (s.files path) = .ok state ∨ ∃ i, state = s.state i) →
        state.Ordered ∧ (∀ e ∈ state.entries, e.batch ≤ state.currentBatch) ∧
          ∃ older newest, state.entries = older ++ newest ∧
            (∀ e ∈ older, e.batch ≠ state.currentBatch) ∧
            (∀ e ∈ newest, e.batch = state.currentBatch) ∧ state.lastBatch = newest.reverse := by
  have h := Ordered.calls habsent hcalls
  refine ⟨⟨h.file.choose, h.file.choose_spec.1⟩, ?_⟩
  intro state hstate
  have hordered : state.Ordered := by
    cases hstate with
    | inl hdecode => exact h.file.ordered hdecode
    | inr hmemory =>
      obtain ⟨i, rfl⟩ := hmemory
      exact h.state i
  exact ⟨hordered, hordered.batch_le, hordered.lastBatch⟩

def perform (path : Path) (serve : (r : World.Request) → Files → World.Reply r × Files)
    (s : Desk ι) (i : ι) (o : Operation) : Desk ι :=
  match (Ledger.call ⟨path, s.state i⟩ ⟨0, 0⟩ (o.program ·)).run serve s.files with
  | (.ok (_, l), files) => ⟨files, Function.update s.state i l.state⟩
  | (.error _, files) => ⟨files, s.state⟩

theorem call_perform {serve : (r : World.Request) → Files → World.Reply r × Files}
    (hserve : ∀ r files, (World.server (File.Owns path)).Serves r files (serve r files).1
      (serve r files).2) {i : ι} {o : Operation} (hnamed : o.Named)
    (hbelow : Below path (s.files path)) : Call path s (s.perform path serve i o) := by
  have hexec := Exec.run hserve (Ledger.call ⟨path, s.state i⟩ ⟨0, 0⟩ (o.program ·)) s.files
  obtain ⟨result, houtcome, _⟩ := ends_of_call (l := ⟨path, s.state i⟩) hexec
  unfold perform
  generalize Program.run _ _ _ = ended at hexec houtcome
  obtain ⟨_, files⟩ := ended
  cases houtcome
  exact .call hnamed hbelow hexec

theorem below_of_all {content? : Option Text}
    (h : (decodeFile path content?).toOption.all (·.currentBatch < State.maxBatch) = true) :
    Below path content? := by
  intro s hs
  rw [hs] at h
  exact of_decide_eq_true h

/--
The ledger `true` records a batch although the operation fails, so that the file is ahead of it. The
ledger `false` records another batch behind that one, and then the first one is removed by the
ledger `true`. Now the ledger `false` is behind the file.
-/
theorem ordered_of_failed_record :
    let path : Path := ascii "ledger.json"
    ∃ (s : Desk Bool) (state : State),
      Relation.ReflTransGen (Call path) (initial fun _ => none) s ∧
      decodeFile path (s.files path) = .ok state ∧
      state.files = [ascii "2.sigl"] ∧ state.currentBatch = 2 ∧ state.Ordered ∧
      (s.state true).files = [ascii "2.sigl"] ∧ (s.state true).Ordered ∧
      (s.state false).files = [ascii "1.sigl", ascii "2.sigl"] ∧ (s.state false).Ordered ∧
      ∃ older newest, (s.state false).entries = older ++ newest ∧
        (s.state false).lastBatch = newest.reverse := by
  intro path
  let batch (name : Text) : Operation := .mutate (.record [⟨name, ascii "x"⟩])
  let removal : Operation := .mutate (.remove [ascii "1.sigl"])
  let s₁ := (initial fun _ => none : Desk Bool).perform path unsyncing true (batch (ascii "1.sigl"))
  let s₂ := s₁.perform path (World.obliging []) false (batch (ascii "2.sigl"))
  let s₃ := s₂.perform path (World.obliging []) true removal
  -- The three runs are computed once for all that is said about them.
  obtain ⟨hbelow₁, hbelow₂, hfile, htrue, hfalse⟩ :
      (decodeFile path (s₁.files path)).toOption.all (·.currentBatch < State.maxBatch) = true ∧
      (decodeFile path (s₂.files path)).toOption.all (·.currentBatch < State.maxBatch) = true ∧
      (decodeFile path (s₃.files path)).toOption.map (fun s => (s.files, s.currentBatch)) =
        some ([ascii "2.sigl"], 2) ∧
      (s₃.state true).files = [ascii "2.sigl"] ∧
      (s₃.state false).files = [ascii "1.sigl", ascii "2.sigl"] := by decide +kernel
  have hnamed (name : Text) (hname : name ≠ []) : (batch name).Named :=
    List.forall_mem_singleton.mpr hname
  have hcall₁ : Call path (initial fun _ => none) s₁ :=
    call_perform unsyncing_serves (hnamed _ (by decide)) (below_of_all rfl)
  have hcall₂ : Call path s₁ s₂ :=
    call_perform (World.obliging_serves []) (hnamed _ (by decide)) (below_of_all hbelow₁)
  have hcall₃ : Call path s₂ s₃ :=
    call_perform (World.obliging_serves []) trivial (below_of_all hbelow₂)
  have hcalls := ((Relation.ReflTransGen.single hcall₁).tail hcall₂).tail hcall₃
  obtain ⟨⟨state, hstate⟩, hordered⟩ := ordered_of_calls rfl hcalls
  rw [hstate] at hfile
  obtain ⟨hfiles, hbatch⟩ := Prod.mk.inj (Option.some.inj hfile)
  obtain ⟨hbehind, _, older, newest, hentries, _, _, hlast⟩ :=
    hordered (s₃.state false) (.inr ⟨false, rfl⟩)
  exact ⟨s₃, state, hcalls, hstate, hfiles, hbatch, (hordered state (.inl hstate)).1, htrue,
    (hordered _ (.inr ⟨true, rfl⟩)).1, hfalse, hbehind, older, newest, hentries, hlast⟩

end Desk

end SchemaMigration.Ledger

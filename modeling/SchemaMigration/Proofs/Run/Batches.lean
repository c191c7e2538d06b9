import SchemaMigration.Proofs.Run.Interleaving

/-!
This module contains that upward runs that share a ledger file never leave anything out of it
without saying so. Two runs may apply the same file, but only one of them can record it.
-/

namespace SchemaMigration.Run

open Ledger (Appended Entry)

def AppendsBatch (names : List Text) (entries entries' : List Entry) : Prop :=
  ∃ files : List MigrationFile, files.map (·.name) = names ∧ Appended files entries entries'

variable {entries entries' : List Entry} {names : List Text}

theorem AppendsBatch.isPrefix (h : AppendsBatch names entries entries') : entries <+: entries' := by
  obtain ⟨files, _, happended⟩ := h
  cases happended
  exact List.prefix_append _ _

theorem AppendsBatch.nodup (h : AppendsBatch names entries entries')
    (hnodup : (entries.map (·.file)).Nodup) : (entries'.map (·.file)).Nodup := by
  obtain ⟨files, _, happended⟩ := h
  cases happended with
  | batch appliedAt _ hfresh =>
    have hnames := hfresh.distinct
    rw [List.map_id] at hnames
    rw [List.map_append, List.map_map, List.nodup_append]
    refine ⟨hnodup, hnames, ?_⟩
    rintro name hold _ hnew rfl
    exact hfresh.unseen name hnew hold

theorem AppendsBatch.mem (h : AppendsBatch names entries entries') {name : Text}
    (hname : name ∈ names) : name ∈ entries'.map (·.file) := by
  obtain ⟨files, rfl, happended⟩ := h
  cases happended
  rw [List.map_append, List.map_map]
  exact List.mem_append_right _ hname

namespace Moves

variable {direction : Direction} {c c' : Course} {newer : List Act}

/-- Once a run has tried to update the ledger, it commits and updates nothing more. -/
theorem of_updated (h : Moves direction c entries c' entries' newer)
    (hupdated : c.updated? ≠ none) :
    c'.committed = c.committed ∧ c'.updated? = c.updated? ∧ entries' = entries := by
  cases h with
  | silent hcommitted hsame => exact ⟨hcommitted, hsame, rfl⟩
  | commit _ hnone => exact absurd hnone hupdated
  | record _ _ hnone => exact absurd hnone hupdated
  | remove _ _ hnone => exact absurd hnone hupdated
  | failed hnone => exact absurd hnone hupdated

/-- An upward run leaves the ledger alone, or appends all that it has committed. -/
theorem appends (h : Moves .apply c entries c' entries' newer) :
    entries' = entries ∨ c'.updated? ≠ none ∧ AppendsBatch c'.committed entries entries' := by
  cases h with
  | silent => exact .inl rfl
  | commit => exact .inl rfl
  | failed => exact .inl rfl
  | record ok _ _ _ hfiles happended =>
    exact .inr ⟨Option.some_ne_none ok, _, hfiles, happended⟩
  | remove _ hdirection => cases hdirection

/-- An upward run that has updated the ledger did so before or does so now. -/
theorem appends_of_updated (h : Moves .apply c entries c' entries' newer)
    (hupdated : c'.updated? = some true) :
    c.updated? = some true ∧ c'.committed = c.committed ∨
      AppendsBatch c'.committed entries entries' := by
  cases h with
  | silent hcommitted hsame => exact .inl ⟨hsame.symm.trans hupdated, hcommitted⟩
  | commit _ hnone => cases hnone.symm.trans hupdated
  | failed => cases hupdated
  | record _ _ _ _ hfiles happended => exact .inr ⟨_, hfiles, happended⟩
  | remove _ hdirection => cases hdirection

end Moves

namespace Scene

variable {ι : Type} [DecidableEq ι] {jobs : ι → Job} {ledger : Path} {s s' start : Scene ι}

/-- A run has appended all that it committed to the ledger file in a step of its own. -/
def Contributed (jobs : ι → Job) (ledger : Path) (start : Scene ι) (i : ι) (s : Scene ι) : Prop :=
  ∃ t t', Relation.ReflTransGen (Step jobs) start t ∧ StepOf jobs i t t' ∧
    Relation.ReflTransGen (Step jobs) t' s ∧
    AppendsBatch (s.course i).committed (Ledger.entries (t.files ledger))
      (Ledger.entries (t'.files ledger))

/-- What a run has committed when it tries to update the ledger is all that it commits. -/
theorem committed_of_updated (hledger : ∀ i, (jobs i).options.ledger = ledger)
    (hbehaves : s.Behaves jobs) {i : ι} (hupdated : (s.course i).updated? ≠ none)
    (hruns : Relation.ReflTransGen (Step jobs) s s') :
    (s'.course i).committed = (s.course i).committed ∧ (s'.course i).updated? ≠ none := by
  induction hruns with
  | refl => exact ⟨rfl, hupdated⟩
  | tail hruns hstep ih =>
    obtain ⟨j, c, newer, hmoves, hcourse, _⟩ := (behaves_of_runs hbehaves hruns).moves hledger hstep
    rw [hcourse]
    by_cases hij : i = j
    . subst hij
      obtain ⟨hcommitted, hsame, _⟩ := hmoves.of_updated ih.2
      rw [Function.update_self, hcommitted, hsame]
      exact ih
    . rw [Function.update_of_ne hij]
      exact ih

section Upward

variable (hledger : ∀ i, (jobs i).options.ledger = ledger) (hup : ∀ i, (jobs i).direction = .apply)

include hledger hup

/-- Whatever a run appends to the ledger file is all that it commits. -/
theorem appends_of_stepOf {i : ι} {t t' : Scene ι} (hbehaves : t.Behaves jobs)
    (hstep : StepOf jobs i t t') (hruns : Relation.ReflTransGen (Step jobs) t' s') :
    Ledger.entries (t'.files ledger) = Ledger.entries (t.files ledger) ∨
      AppendsBatch (s'.course i).committed (Ledger.entries (t.files ledger))
        (Ledger.entries (t'.files ledger)) := by
  obtain ⟨c, newer, hmoves, hcourse, _⟩ := hbehaves.movesOf hledger hstep
  rw [hup i] at hmoves
  refine hmoves.appends.imp_right ?_
  rintro ⟨hupdated, happends⟩
  have hc : t'.course i = c := by
    rw [hcourse, Function.update_self]
  rw [← hc] at hupdated happends
  rw [(committed_of_updated hledger (hbehaves.step ⟨i, hstep⟩) hupdated hruns).1]
  exact happends

theorem grows_of_step (hbehaves : s.Behaves jobs) (hstep : Step jobs s s') :
    Ledger.entries (s.files ledger) <+: Ledger.entries (s'.files ledger) ∧
      ((Ledger.recorded (s.files ledger)).Nodup → (Ledger.recorded (s'.files ledger)).Nodup) := by
  obtain ⟨i, hstep⟩ := hstep
  rw [Ledger.recorded_eq, Ledger.recorded_eq]
  cases appends_of_stepOf hledger hup hbehaves hstep .refl with
  | inl hsame =>
    rw [hsame]
    exact ⟨List.prefix_refl _, id⟩
  | inr happends => exact ⟨happends.isPrefix, happends.nodup⟩

theorem grows_of_runs (hbehaves : s.Behaves jobs)
    (hruns : Relation.ReflTransGen (Step jobs) s s') :
    Ledger.entries (s.files ledger) <+: Ledger.entries (s'.files ledger) ∧
      ((Ledger.recorded (s.files ledger)).Nodup → (Ledger.recorded (s'.files ledger)).Nodup) := by
  induction hruns with
  | refl => exact ⟨List.prefix_refl _, id⟩
  | tail hruns hstep ih =>
    obtain ⟨hgrows, hdistinct⟩ :=
      grows_of_step hledger hup (behaves_of_runs hbehaves hruns) hstep
    exact ⟨ih.1.trans hgrows, hdistinct ∘ ih.2⟩

/-- A run whose update of the ledger succeeded has made this update itself. -/
theorem contributed_of_updated (hbehaves : start.Behaves jobs)
    (hstart : ∀ i, (start.course i).updated? = none)
    (hruns : Relation.ReflTransGen (Step jobs) start s) {i : ι}
    (hupdated : (s.course i).updated? = some true) : Contributed jobs ledger start i s := by
  induction hruns with
  | refl => cases (hstart i).symm.trans hupdated
  | @tail t t' hruns hstep ih =>
    -- Steps of others leave the course of the run as it is.
    have hkeeps : (t.course i).updated? = some true →
        (t'.course i).committed = (t.course i).committed → Contributed jobs ledger start i t' := by
      intro hbefore hcommitted
      obtain ⟨u, u', hu, hown, hu', happends⟩ := ih hbefore
      rw [← hcommitted] at happends
      exact ⟨u, u', hu, hown, hu'.tail hstep, happends⟩
    obtain ⟨j, hown⟩ := hstep
    obtain ⟨c, newer, hmoves, hcourse, _⟩ :=
      (behaves_of_runs hbehaves hruns).movesOf hledger hown
    rw [hup j] at hmoves
    by_cases hij : i = j
    . subst hij
      have hc : t'.course i = c := by
        rw [hcourse, Function.update_self]
      rw [← hc] at hmoves
      cases hmoves.appends_of_updated hupdated with
      | inl hbefore => exact hkeeps hbefore.1 hbefore.2
      | inr happends => exact ⟨t, t', hruns, hown, .refl, happends⟩
    . have hsame : t'.course i = t.course i := by
        rw [hcourse, Function.update_of_ne hij]
      rw [hsame] at hupdated
      exact hkeeps hupdated (by rw [hsame])

theorem contributed_or_reported {files : Files}
    (hruns : Relation.ReflTransGen (Step jobs) (initial jobs files) s) {i : ι}
    {outcome : Except Failure Unit} (houtcome : s.outcome? i = some outcome)
    (hcommitted : (s.course i).committed ≠ []) :
    Contributed jobs ledger (initial jobs files) i s ∨
      ∃ cause, outcome = .error (.inconsistent .apply ledger (s.course i).committed cause) := by
  have hends := (behaves_of_steps hruns).ends houtcome
  rw [hup i, hledger i] at hends
  cases hends with
  | idle hnone => exact absurd hnone hcommitted
  | updated hupdated =>
    left
    exact contributed_of_updated hledger hup (behaves_of_steps .refl) (fun _ => rfl) hruns hupdated
  | inconsistent _ cause => exact .inr ⟨cause, rfl⟩

/-- What a run has contributed stays in the ledger file. -/
theorem Contributed.mem {files : Files} {i : ι}
    (h : Contributed jobs ledger (initial jobs files) i s) {file : Text}
    (hfile : file ∈ (s.course i).committed) : file ∈ Ledger.recorded (s.files ledger) := by
  obtain ⟨t, t', hbefore, hstep, hbehind, happends⟩ := h
  have hbehaves := behaves_of_steps (hbefore.tail ⟨i, hstep⟩)
  rw [Ledger.recorded_eq]
  exact ((grows_of_runs hledger hup hbehaves hbehind).1.map _).subset (happends.mem hfile)

end Upward

/--
However upward runs that share a ledger file are interleaved and whatever fails, the ledger file
never names a migration twice and is only appended to. Whatever a run appends is one new batch of
all that it commits. A run that has ended has appended what it committed, in a step of its own, or
its outcome names just that. So when all runs have ended, whatever was applied is recorded or named.
-/
theorem committed_is_batched_or_reported {files : Files}
    (hledger : ∀ i, (jobs i).options.ledger = ledger) (hup : ∀ i, (jobs i).direction = .apply)
    (hdistinct : (Ledger.recorded (files ledger)).Nodup)
    (hruns : Relation.ReflTransGen (Step jobs) (initial jobs files) s)
    (hruns' : Relation.ReflTransGen (Step jobs) s s') :
    (Ledger.recorded (s'.files ledger)).Nodup ∧
      Ledger.entries (s.files ledger) <+: Ledger.entries (s'.files ledger) ∧
      (∀ i t, StepOf jobs i s t → Relation.ReflTransGen (Step jobs) t s' →
        Ledger.entries (t.files ledger) = Ledger.entries (s.files ledger) ∨
          AppendsBatch (s'.course i).committed (Ledger.entries (s.files ledger))
            (Ledger.entries (t.files ledger))) ∧
      (∀ i outcome, s'.outcome? i = some outcome → (s'.course i).committed ≠ [] →
        Contributed jobs ledger (initial jobs files) i s' ∨
          ∃ cause, outcome =
            .error (.inconsistent .apply ledger (s'.course i).committed cause)) ∧
      ((∀ i, (s'.outcome? i).isSome) →
        ∀ direction file, .commit direction file ∈ s'.acts →
          file ∈ Ledger.recorded (s'.files ledger) ∨
            ∃ i names cause,
              s'.outcome? i = some (.error (.inconsistent .apply ledger names cause)) ∧
                file ∈ names) := by
  have hbehaves := behaves_of_steps hruns
  have hall := hruns.trans hruns'
  refine ⟨?_, (grows_of_runs hledger hup hbehaves hruns').1, ?_, ?_, ?_⟩
  . exact (grows_of_runs hledger hup (behaves_of_steps .refl) hall).2 hdistinct
  . intro i t hstep hbehind
    exact appends_of_stepOf hledger hup hbehaves hstep hbehind
  . intro i outcome
    exact contributed_or_reported hledger hup hall
  . intro hended direction file hcommit
    obtain ⟨i, hi⟩ := (tallies_of_steps hledger hall file).mp ⟨direction, hcommit⟩
    obtain ⟨outcome, houtcome⟩ := Option.isSome_iff_exists.mp (hended i)
    cases contributed_or_reported hledger hup hall houtcome (List.ne_nil_of_mem hi) with
    | inl hcontributed => exact .inl (hcontributed.mem hledger hup hi)
    | inr hreported =>
      obtain ⟨cause, rfl⟩ := hreported
      exact .inr ⟨i, _, cause, houtcome, hi⟩

/-- Two runs apply the same file before either of them records it. -/
theorem reported_of_overlapping_runs :
    let ledger : Path := ascii "ledger.json"
    let file := ascii "1.sigl"
    let files : Files := fun path =>
      if path = ascii "m/1.sigl" then some (ascii "model A \x7b id Int\n\x7d") else none
    let jobs : Bool → Job := fun _ =>
      ⟨⟨ascii "m", ledger, ⟨false, 0, 0⟩, ⟨0, 0⟩, ⟨1, 0⟩⟩, .sqlite, .apply⟩
    ∃ s cause, Relation.ReflTransGen (Step jobs) (initial jobs files) s ∧
      s.acts = [.commit .apply file, .commit .apply file, .update .apply [file]] ∧
      s.outcome? true = some (.ok ()) ∧ Ledger.recorded (s.files ledger) = [file] ∧
      Contributed jobs ledger (initial jobs files) true s ∧
      s.outcome? false = some (.error (.inconsistent .apply ledger [file] cause)) := by
  intro ledger file files jobs
  -- The first run stops behind its transaction until the second one has ended.
  let schedule := List.replicate 6 false ++ List.replicate 10 true ++ List.replicate 4 false
  obtain ⟨s, hs, hacts, hrecorded, htrue, hfalse, hcommitted, hcommitted', hupdated⟩ : ∃ s,
      schedule.foldl (turn jobs file) (initial jobs files) = s ∧
      s.acts = [.commit .apply file, .commit .apply file, .update .apply [file]] ∧
      Ledger.recorded (s.files ledger) = [file] ∧
      (s.outcome? true).map (·.isOk) = some true ∧ (s.outcome? false).map (·.isOk) = some false ∧
      (s.course true).committed = [file] ∧ (s.course false).committed = [file] ∧
      (s.course false).updated? = some false :=
    ⟨_, rfl, by decide +kernel⟩
  have hruns : Relation.ReflTransGen (Step jobs) (initial jobs files) s :=
    hs ▸ turns_steps jobs file (initial jobs files) schedule
  have hledger : ∀ i, (jobs i).options.ledger = ledger := fun _ => rfl
  have hdistinct : (Ledger.recorded (files ledger)).Nodup := List.nodup_nil
  obtain ⟨_, _, _, hended, _⟩ :=
    committed_is_batched_or_reported hledger (fun _ => rfl) hdistinct hruns .refl
  have hrecords := hended true _ (outcome?_eq_ok htrue)
  rw [hcommitted] at hrecords
  obtain ⟨outcome, houtcome, _⟩ := Option.map_eq_some_iff.mp hfalse
  have hends := (behaves_of_steps hruns).ends houtcome
  generalize s.course false = c at hends hcommitted' hupdated
  cases hends with
  | idle hnone => cases hcommitted'.symm.trans hnone
  | updated htrue => cases hupdated.symm.trans htrue
  | inconsistent _ cause =>
    refine ⟨s, cause, hruns, hacts, outcome?_eq_ok htrue, hrecorded, ?_, ?_⟩
    . exact (hrecords (List.cons_ne_nil _ _)).resolve_right nofun
    . rw [← hcommitted']
      exact houtcome

end Scene

end SchemaMigration.Run

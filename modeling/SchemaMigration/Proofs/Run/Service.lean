import SchemaMigration.Proofs.Ledger.Operations
import SchemaMigration.Proofs.Run.Footprint
import SchemaMigration.Run.Run

/-!
This module contains what the requests of a run do to the ledger file when they are served on the
file system, whatever others do to all other files meanwhile.
-/

namespace SchemaMigration.Run

open Program (Ensures Exec Spares Within)

/--
What a request makes of the entries of the ledger file. One that is to change them and fails leaves
them as they are, or else has changed them all the same.
-/
def Alters : (r : Request) → Reply r → List Ledger.Entry → List Ledger.Entry → Prop
  | .load, reply, entries, entries' =>
    entries' = entries ∧ ∀ s, reply = .ok s → s.entries = entries ∧ s.files.Nodup
  | .record files, reply, entries, entries' =>
    (entries' = entries ∧ reply.isOk = false) ∨ Ledger.Appended files entries entries'
  | .remove files, reply, entries, entries' =>
    (entries' = entries ∧ reply.isOk = false) ∨
      entries' = entries.filter (!files.contains ·.file)
  | _, _, entries, entries' => entries' = entries

theorem mem_files_filter {entries : List Ledger.Entry} {names : List Text} {file : Text} :
    file ∈ (entries.filter (!names.contains ·.file)).map (·.file) ↔
      file ∈ entries.map (·.file) ∧ file ∉ names := by
  simp only [List.mem_map, List.mem_filter, Bool.not_eq_true', List.contains_eq_mem,
    decide_eq_false_iff_not]
  constructor
  . rintro ⟨e, ⟨he, hfile⟩, rfl⟩
    exact ⟨⟨e, he, rfl⟩, hfile⟩
  . rintro ⟨⟨e, he, rfl⟩, hfile⟩
    exact ⟨e, ⟨he, hfile⟩, rfl⟩

variable {options : Options} {α : Type} {files files' : Files}

theorem exec_onLedger {outcome : Except Failure α}
    {operation : Ledger → Program Ledger.Access Failure α}
    {Q : Except Failure α → Option Text → Prop}
    (hexec : Exec (World.server (File.Owns options.ledger)) (onLedger options operation) files
      (.ok outcome) files')
    (h : Ensures (Ledger.server options.ledger) (operation (.new options.ledger))
      (files options.ledger) Q) :
    Q outcome (files' options.ledger) :=
  (Ledger.onDisk_ensures h options.lock).of_exec hexec.of_attempt

/-- Of the ledger that an operation gives, a run only needs the state. -/
theorem ensures_state {S : Type} {server : Server Ledger.Access S}
    {operation : Program Ledger.Access Failure Ledger} {s : S}
    {Q : Except Failure Ledger → S → Prop} (h : Ensures server operation s Q) :
    Ensures server (return (← operation).state) s fun outcome s' =>
      ∃ outcome', outcome = outcome'.map (·.state) ∧ Q outcome' s' := by
  rw [Program.ensures_bind]
  apply h.mono
  intro outcome' s' hQ
  cases outcome' with
  | error e => exact ⟨.error e, rfl, hQ⟩
  | ok l => exact ⟨.ok l, rfl, hQ⟩

theorem exec_onLedger_state (operation : Ledger → Program Ledger.Access Failure Ledger)
    {outcome : Except Failure Ledger.State} {Q : Except Failure Ledger → Option Text → Prop}
    (hexec : Exec (World.server (File.Owns options.ledger))
      (onLedger options fun l => return (← operation l).state) files (.ok outcome) files')
    (h : Ensures (Ledger.server options.ledger) (operation (.new options.ledger))
      (files options.ledger) Q) :
    ∃ outcome', outcome = outcome'.map (·.state) ∧ Q outcome' (files' options.ledger) :=
  exec_onLedger hexec (ensures_state h)

theorem isOk_map {ε β : Type} (f : α → β) (outcome : Except ε α) :
    (outcome.map f).isOk = outcome.isOk := by
  cases outcome with
  | error e => rfl
  | ok a => rfl

theorem exec_spares {p : Program World Failure α} {outcome : Except Failure α}
    (hexec : Exec (World.server (File.Owns options.ledger)) p files outcome files')
    (h : Spares options.ledger p) : files' options.ledger = files options.ledger :=
  ((h.spares (File.owns_self _) files).of_exec hexec).2

def Rewrites (ledger : Path) : (r : Request) → Reply r → Option Text → Option Text → Prop
  | .load, reply, content?, content?' =>
    content?' = content? ∧ ∀ s, reply = .ok s → Ledger.decodeFile ledger content? = .ok s
  | .probe, _, content?, content?' => Ledger.Restated ledger content? content?'
  | .record files, reply, content?, content?' =>
    Ledger.Mutated ledger (.record files) content? reply.isOk content?'
  | .remove files, reply, content?, content?' =>
    Ledger.Mutated ledger (.remove files) content? reply.isOk content?'
  | _, _, content?, content?' => content?' = content?

theorem serve_rewrites {r : Request} {reply : Reply r}
    (hexec : Exec (World.server (File.Owns options.ledger)) (serve options World.pause r) files
      (.ok reply) files') :
    Rewrites options.ledger r reply (files options.ledger) (files' options.ledger) := by
  cases r with
  | load =>
    obtain ⟨outcome, rfl, hsame, hload⟩ :=
      exec_onLedger_state (·.load) hexec (Ledger.load_ensures (.new options.ledger))
    refine ⟨hsame, fun s hs => ?_⟩
    cases outcome with
    | error e => cases hs
    | ok l =>
      cases hs
      exact hload l rfl
  | probe => exact exec_onLedger hexec (Ledger.probe_ensures (.new options.ledger))
  | record files =>
    obtain ⟨outcome, rfl, hrecord⟩ := exec_onLedger_state (·.record files) hexec
      (Ledger.mutate_ensures (.new options.ledger) (.record files) nofun)
    rw [Rewrites, isOk_map]
    exact hrecord
  | remove files =>
    obtain ⟨outcome, rfl, hremove⟩ := exec_onLedger_state (·.remove files) hexec
      (Ledger.mutate_ensures (.new options.ledger) (.remove files) nofun)
    rw [Rewrites, isOk_map]
    exact hremove
  -- The requests from here on do not touch the ledger file.
  | listFiles =>
    have hreads := (Migration.listFiles_reads options.migrations).attempt
    exact exec_spares hexec (Within.mono (fun _ h => h.spares _) hreads)
  | loadFiles =>
    have hreads := (Migration.loadFiles_reads options.migrations options.limits).attempt
    exact exec_spares hexec (Within.mono (fun _ h => h.spares _) hreads)
  | connect => exact exec_spares hexec (Connection.connectFrom_spares _ _ _ _).attempt
  | transaction | disconnect =>
    exact exec_spares hexec (Within.bind (Within.call trivial) fun _ => Within.pure _)
  | log entry => exact exec_spares hexec (Within.call trivial)

theorem Rewrites.alters {ledger : Path} {r : Request} {reply : Reply r}
    {content? content?' : Option Text} (h : Rewrites ledger r reply content? content?') :
    Alters r reply (Ledger.entries content?) (Ledger.entries content?') := by
  cases r with
  | load =>
    obtain ⟨rfl, hload⟩ := h
    refine ⟨rfl, fun s hs => ?_⟩
    have hdecode := hload s hs
    exact ⟨(Ledger.entries_of_decodeFile hdecode).symm, Ledger.nodup_of_decodeFile hdecode⟩
  | probe => exact Ledger.Restated.entries h
  | record files =>
    change Ledger.Mutated ledger (.record files) content? reply.isOk content?' at h
    generalize hok : reply.isOk = ok at h
    cases h with
    | kept => exact .inl ⟨rfl, hok⟩
    | skipped hm => cases hm
    | wrote hdecode hwrites => exact .inr (Ledger.appended_of_writes hdecode hwrites)
  | remove files =>
    change Ledger.Mutated ledger (.remove files) content? reply.isOk content?' at h
    generalize hok : reply.isOk = ok at h
    cases h with
    | kept => exact .inl ⟨rfl, hok⟩
    | skipped hm =>
      cases hm
      exact .inr (List.filter_eq_self.mpr fun _ _ => rfl).symm
    | wrote hdecode hwrites => exact .inr (Ledger.entries_of_remove hdecode hwrites)
  | _ => exact congrArg _ h

theorem serve_alters {r : Request} {reply : Reply r}
    (hexec : Exec (World.server (File.Owns options.ledger)) (serve options World.pause r) files
      (.ok reply) files') :
    Alters r reply (Ledger.entries (files options.ledger))
      (Ledger.entries (files' options.ledger)) :=
  (serve_rewrites hexec).alters

/-- A request of a run always gets a reply, if only one that tells of a failure. -/
theorem isOk_of_exec {T : Type} {world : Server World T} {r : Request} {t t' : T}
    {outcome : Except Failure (Reply r)}
    (hexec : Exec world (serve options World.pause r) t outcome t') : outcome.isOk := by
  let anything : Server World Unit := World.allowing fun _ => True
  have hattempt : ∀ {β : Type} (p : Program World Failure β),
      Ensures anything p.attempt () fun outcome _ => outcome.isOk := by
    intro β p
    rw [Program.ensures_attempt]
    apply (Program.ensures_true (fun _ _ => trivial) p ()).mono
    intro _ _ _
    rfl
  have hserve : Ensures anything (serve options World.pause r) ()
      fun outcome _ => outcome.isOk := by
    cases r with
    | transaction | disconnect | log => exact ⟨trivial, fun _ _ _ => rfl⟩
    | _ => exact hattempt _
  exact hserve.of_exec (hexec.map (fun _ => ()) fun _ _ _ _ _ => trivial)

theorem perform_ask (pause : Int → Program World Failure Unit) (r : Request)
    (next : Reply r → Program Access Failure α) :
    perform options pause (.ask r next) =
      serve options pause r >>= fun reply => perform options pause (next reply) :=
  Program.bind_assoc (serve options pause r) _ _

/--
Whatever a run does when it is performed is covered by how its requests are served, also where
something more is kept in mind from request to request.
-/
theorem exists_exec_of_perform {T G S : Type} {world : Server World T} {server : Server Access S}
    (join : T → G → S)
    (hserves : ∀ r t reply t' g, Exec world (serve options World.pause r) t (.ok reply) t' →
      ∃ g', server.Serves r (join t g) reply (join t' g'))
    {run : Program Access Failure α} {t t' : T} {outcome : Except Failure α}
    (hexec : Exec world (perform options World.pause run) t outcome t') (g : G) :
    ∃ g', Exec server run (join t g) outcome (join t' g') := by
  induction run generalizing t g with
  | done a =>
    cases hexec
    exact ⟨g, .done a _⟩
  | fail e =>
    cases hexec
    exact ⟨g, .fail e _⟩
  | ask r next ih =>
    rw [perform_ask] at hexec
    cases hexec.of_bind with
    | inl hreply =>
      obtain ⟨reply, t₁, hserve, hnext⟩ := hreply
      obtain ⟨g₁, hserved⟩ := hserves r t reply t₁ g hserve
      obtain ⟨g', hrest⟩ := ih reply hnext g₁
      exact ⟨g', .ask hserved hrest⟩
    | inr herror =>
      obtain ⟨e, _, hserve⟩ := herror
      exact nomatch isOk_of_exec hserve

end SchemaMigration.Run

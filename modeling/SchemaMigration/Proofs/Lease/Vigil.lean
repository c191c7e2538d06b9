import SchemaMigration.Proofs.Lease.Foreign
import SchemaMigration.Proofs.Lease.Record
import SchemaMigration.Proofs.Machine.Alone

/-!
This module contains a lease that is alone with its files, but for what others do whenever it has
slept. For each part of taking the lease it says exactly which outcomes there are and what becomes
of the lock file.
-/

namespace SchemaMigration.Lease

open Program (Ensures)

def Scene.pass (s : Scene) (millis : Int) : Scene :=
  { s with around := { s.around with clock := s.around.clock + millis } }

/-- A lease that waits: its surroundings, and how often it has tried and slept. -/
structure Vigil where
  scene : Scene
  /-- What a clock shows that counts nanoseconds. -/
  ticks : Int
  names : Nat
  /-- How often a lock has been linked to its place, or that has been attempted. -/
  attempts : Nat
  /-- The lengths of the sleeps in order, in nanoseconds. -/
  sleeps : List Int

namespace Vigil

structure Host where
  pid : Int
  /-- The names that are new, one after another. -/
  name : Nat → Text
  name_utf8 : ∀ n, (name n).isUtf8 = true
  /-- What others do at the end of a sleep, by its number. -/
  others : Nat → Scene → Scene

def withFiles (v : Vigil) (files : Files) : Vigil := { v with scene := { v.scene with files } }

def millis (v : Vigil) (nanos : Int) : Int := (v.ticks + nanos) / 1000000 - v.ticks / 1000000

def sleep (host : Host) (v : Vigil) (nanos : Int) : Vigil :=
  { v with
    scene := host.others (v.sleeps.length + 1) (v.scene.pass (v.millis nanos))
    ticks := v.ticks + nanos
    sleeps := v.sleeps ++ [nanos] }

def server (host : Host) (mine : Path → Prop) (mayFail : Prop) : Server World Vigil where
  Admits
    | .wait _, _ => True
    | r, v => World.Keeps mine r v.scene.files
  Serves
    | .hostName, v, reply, v' => reply = v.scene.around.hostName? ∧ v' = v
    | .processId, v, reply, v' => reply = host.pid ∧ v' = v
    | .isAlive pid, v, reply, v' => reply = v.scene.around.isAlive pid ∧ v' = v
    | .now, v, reply, v' => reply.millis = v.scene.around.clock ∧ v' = v
    | .ticks, v, reply, v' => reply = v.ticks ∧ v' = v
    | .wait nanos, v, _, v' => v' = v.sleep host nanos
    | .freshName, v, reply, v' =>
      World.Settles mine mayFail .freshName reply v.scene.files v.scene.files ∧
        reply = host.name v.names ∧ v' = { v with names := v.names + 1 }
    | .link source target, v, reply, v' =>
      ∃ files, World.Settles mine mayFail (.link source target) reply v.scene.files files ∧
        v' = { v.withFiles files with attempts := v.attempts + 1 }
    | r, v, reply, v' =>
      ∃ files, World.Settles mine mayFail r reply v.scene.files files ∧ v' = v.withFiles files

/-- What a program does that is alone with its files, it does where a lease waits. -/
theorem ensures_of_alone {ε α : Type} {host : Host} {mine : Path → Prop} {mayFail : Prop}
    {v : Vigil} {p : Program World ε α} {Q : Except ε α → Files → Prop}
    (h : Ensures (World.alone mine mayFail) p v.scene.files Q) :
    Ensures (server host mine mayFail) p v fun outcome v' => Q outcome v'.scene.files := by
  refine (h.simulate (fun files v => v.scene.files = files) ?_ ?_ rfl).mono ?_
  . rintro r _ v rfl hadmits
    cases r with
    | wait nanos => trivial
    | _ => exact hadmits
  . rintro r _ v reply v' rfl hadmits hserves
    cases r with
    | hostName | processId | isAlive | now | ticks =>
      obtain ⟨_, rfl⟩ := hserves
      exact ⟨_, rfl, rfl⟩
    | wait nanos => cases hadmits
    | freshName =>
      obtain ⟨hsettles, _, rfl⟩ := hserves
      exact ⟨_, hsettles, rfl⟩
    | _ =>
      obtain ⟨files, hsettles, rfl⟩ := hserves
      exact ⟨files, hsettles, rfl⟩
  . rintro outcome v' ⟨_, rfl, hQ⟩
    exact hQ

end Vigil

open Vigil (server)

variable {host : Vigil.Host} {mine : Path → Prop} {mayFail : Prop} {v : Vigil} {path : Path}
  {content token : Text}

/--
What is found where a lock file is read. Something else may be in the way of a file that is not
there; then no lock is found that could be anybody's.
-/
inductive Found (mayFail : Prop) : Option Text → Except Failure (Option Record) → Prop
  | absent : Found mayFail none (.ok none)
  | file (content : Text) : Found mayFail (some content) (.ok (some (.decode content)))
  | nothing {outcome : Except Failure (Option Record)} (hfail : mayFail)
    (h : ∀ r, outcome = .ok (some r) → r = .empty) : Found mayFail none outcome

theorem Vigil.readRecord_ensures (hmine : mine path) (v : Vigil) :
    Ensures (server host mine mayFail) (readRecord path) v fun outcome v' =>
      v' = v ∧ Found mayFail (v.scene.files path) outcome := by
  unfold readRecord File.readIfExists
  rw [Program.bind_assoc, Program.ensures_call_bind]
  refine ⟨hmine, ?_⟩
  rintro reply _ ⟨files, ⟨rfl, hreply⟩, rfl⟩
  cases reply with
  | error errno =>
    obtain ⟨⟨⟩⟩ | ⟨hfail, hnone, _⟩ := hreply
    rw [hnone]
    exact ⟨rfl, .nothing hfail nofun⟩
  | ok content? =>
    obtain ⟨⟨⟩⟩ | ⟨hfail, hnone, hempty⟩ := hreply
    . refine ⟨rfl, ?_⟩
      cases v.scene.files path with
      | none => exact .absent
      | some content => exact .file content
    . rw [hnone]
      refine ⟨rfl, .nothing hfail ?_⟩
      intro r hr
      cases content? with
      | none => cases hr
      | some content =>
        rw [hempty content rfl] at hr
        cases hr
        rfl

theorem Vigil.localHostName_ensures (v : Vigil) :
    Ensures (server host mine mayFail) localHostName v fun outcome v' =>
      v' = v ∧ outcome = .ok v.scene.around.hostName := by
  unfold localHostName
  rw [Program.ensures_call_bind]
  refine ⟨trivial, ?_⟩
  rintro _ _ ⟨rfl, rfl⟩
  unfold Surroundings.hostName
  split
  . next hnone => rw [hnone]; exact ⟨rfl, rfl⟩
  . next hsome => rw [hsome]; exact ⟨rfl, rfl⟩

theorem Vigil.isStaleRecord_ensures (options : Options) (r : Record) (v : Vigil) :
    Ensures (server host mine mayFail) (isStaleRecord options r) v fun outcome v' =>
      v' = v ∧ ∃ isStale, outcome = .ok isStale ∧
        (isStale = true ↔ v.scene.around.Stale options r) := by
  unfold isStaleRecord
  split
  . next htoken =>
    refine ⟨rfl, false, rfl, iff_of_false Bool.false_ne_true fun hstale => ?_⟩
    exact hstale.token (by simpa using htoken)
  next htoken =>
  rw [Program.ensures_call_bind]
  refine ⟨trivial, ?_⟩
  rintro now _ ⟨hnow, rfl⟩
  rw [hnow]
  split
  . next hage =>
    refine ⟨rfl, false, rfl, iff_of_false Bool.false_ne_true fun hstale => ?_⟩
    exact absurd hstale.age (Int.not_lt.mpr hage)
  next hage =>
  rw [Program.ensures_bind]
  apply (localHostName_ensures _).mono
  rintro _ _ ⟨rfl, rfl⟩
  change Ensures _ (ite _ _ _) _ _
  split
  . next hhost =>
    refine ⟨rfl, false, rfl, iff_of_false Bool.false_ne_true fun hstale => ?_⟩
    simp [hstale.hostName] at hhost
  next hhost =>
  split
  . next hpid =>
    refine ⟨rfl, false, rfl, iff_of_false Bool.false_ne_true fun hstale => ?_⟩
    exact absurd hstale.pid (Int.not_lt.mpr hpid)
  next hpid =>
  refine ⟨trivial, ?_⟩
  rintro _ v ⟨rfl, rfl⟩
  refine ⟨rfl, _, rfl, ?_⟩
  constructor
  . intro hdead
    exact {
      token := by simpa using htoken
      age := Int.not_le.mp hage
      hostName := by simpa using hhost
      pid := Int.not_le.mp hpid
      dead := by simpa using hdead }
  . intro hstale
    rw [hstale.dead]
    rfl

theorem Vigil.log_ensures (entry : Log.Entry) (v : Vigil) :
    Ensures (server host mine mayFail) (HasLog.log entry : Program World Failure Unit) v
      fun outcome v' => v' = v ∧ outcome = .ok () := by
  refine ⟨trivial, ?_⟩
  rintro _ _ ⟨_, rfl, rfl⟩
  exact ⟨rfl, rfl⟩

/-- A lock that is there with a token is removed. -/
theorem Vigil.removeToken_ensures (hmine : mine path) (hlock : v.scene.files path = some content)
    (htoken : (Record.decode content).token = token) :
    Ensures (server host mine mayFail) (removeToken path token) v fun outcome v' =>
      v' = v.withFiles (v.scene.files.set path none) ∧ outcome = .ok () := by
  unfold removeToken
  rw [Program.ensures_bind]
  apply (readRecord_ensures hmine v).mono
  rintro _ _ ⟨rfl, hfound⟩
  rw [hlock] at hfound
  cases hfound
  change Ensures _ (ite _ _ _) _ _
  rw [if_neg (by simpa using htoken), Program.ensures_call_bind]
  refine ⟨⟨hmine, by simp [hlock]⟩, ?_⟩
  rintro _ _ ⟨_, ⟨rfl, rfl⟩, rfl⟩
  dsimp only
  unfold Log.warn Log.audit
  rw [Program.ensures_bind]
  apply (log_ensures _ _).mono
  rintro _ _ ⟨rfl, rfl⟩
  exact log_ensures _ _

def withGuard (path : Path) (files : Files) : Files :=
  files.set (guardPath path) (some ((files (guardPath path)).getD []))

theorem guardPath_ne (path : Path) : guardPath path ≠ path := by
  intro h
  have := congrArg List.length h
  rw [guardPath, List.length_append] at this
  have hpositive : 0 < (ascii ".takeover").length := by decide
  omega

theorem temporaryPath_ne_guardPath (path : Path) (token : Text) :
    File.temporaryPath path token ≠ guardPath path := by
  intro h
  have hlast := congrArg List.getLast? h
  unfold File.temporaryPath guardPath at hlast
  rw [List.getLast?_append_of_ne_nil _ (by decide), List.getLast?_append_of_ne_nil _ (by decide)]
    at hlast
  exact absurd hlast (by decide)

theorem withGuard_of_ne {p : Path} (h : p ≠ guardPath path) (files : Files) :
    withGuard path files p = files p :=
  Files.set_of_ne h _ _

theorem Vigil.lockGuard_ensures (guard : Path) (v : Vigil) :
    Ensures (server host mine mayFail)
      (World.uninterrupted (World.call (.lockGuard guard)) : Program World Failure _) v
      fun outcome v' => v' = v ∧ ∃ locked, outcome = .ok locked ∧ (locked = .ok () ∨ mayFail) := by
  refine Program.ensures_uninterrupted (I := (· = v)) trivial ?_ ?_
  . rintro _ _ ⟨_, rfl, rfl⟩
    rfl
  . rintro _ rfl
    refine ⟨trivial, ?_⟩
    rintro locked _ ⟨_, ⟨hlocked, rfl⟩, rfl⟩
    exact ⟨fun _ => rfl, rfl, locked, rfl, hlocked⟩

inductive Cleared (l : Lease) (mayFail : Prop) (s : Scene) : Except Failure Unit → Files → Prop
  | rests (h : s.Rests l.path l.options) : Cleared l mayFail s (.ok ()) s.files
  | removed {content : Text} (hlock : s.files l.path = some content)
    (hstale : s.around.Stale l.options (.decode content)) :
    Cleared l mayFail s (.ok ()) ((withGuard l.path s.files).set l.path none)
  | failed (e : Failure) (hfail : mayFail) : Cleared l mayFail s (.error e) s.files
  | unguarded (e : Failure) (hfail : mayFail) :
    Cleared l mayFail s (.error e) (withGuard l.path s.files)

theorem Vigil.removeIfStale_ensures {l : Lease} (hmine : mine l.path)
    (hguard : mine (guardPath l.path)) (v : Vigil) :
    Ensures (server host mine mayFail) (removeIfStale l) v fun outcome v' =>
      ∃ files, v' = v.withFiles files ∧ Cleared l mayFail v.scene outcome files := by
  unfold removeIfStale
  rw [Program.ensures_bind]
  apply (readRecord_ensures hmine v).mono
  rintro outcome v ⟨rfl, hfound⟩
  generalize hlock : v.scene.files l.path = content? at hfound
  have hrests : content? = none → v.scene.Rests l.path l.options := by
    rintro rfl content hcontent
    rw [hlock] at hcontent
    cases hcontent
  match outcome, content?, hfound with
  | .error e, _, .nothing hfail _ => exact ⟨_, rfl, .failed e hfail⟩
  | .ok none, _, .nothing _ _ => exact ⟨_, rfl, .rests (hrests rfl)⟩
  | .ok none, _, .absent => exact ⟨_, rfl, .rests (hrests rfl)⟩
  | .ok (some r), _, .nothing _ hr =>
    rw [hr r rfl]
    exact ⟨_, rfl, .rests (hrests rfl)⟩
  | .ok (some _), _, .file content =>
    change Ensures _ (isStaleRecord _ _ >>= _) _ _
    rw [Program.ensures_bind]
    apply (isStaleRecord_ensures _ _ v).mono
    rintro _ v ⟨rfl, isStale, rfl, hstale⟩
    change Ensures _ (ite _ _ _) _ _
    split
    . next his =>
      replace hstale := hstale.mp his
      rw [Program.ensures_call_bind]
      refine ⟨hguard, ?_⟩
      rintro opened _ ⟨files, hopened, rfl⟩
      cases opened with
      | error errno =>
        obtain ⟨hfail, rfl⟩ := hopened
        exact ⟨_, rfl, .failed _ hfail⟩
      | ok _ =>
        cases hopened
        dsimp only
        rw [Program.ensures_bind]
        apply (lockGuard_ensures _ _).mono
        rintro _ _ ⟨rfl, locked, rfl, hlocked⟩
        cases locked with
        | error errno =>
          obtain ⟨⟨⟩⟩ | hfail := hlocked
          change Ensures _ (World.call _ >>= _) _ _
          rw [Program.ensures_call_bind]
          refine ⟨trivial, ?_⟩
          rintro _ _ ⟨_, ⟨_, rfl⟩, rfl⟩
          exact ⟨_, rfl, .unguarded _ hfail⟩
        | ok _ =>
          have hlock' : withGuard l.path v.scene.files l.path = some content := by
            rw [withGuard_of_ne (guardPath_ne l.path).symm, hlock]
          change Ensures _ (Program.andFinally _ _) _ _
          rw [Program.ensures_andFinally]
          apply (removeToken_ensures hmine hlock' rfl).mono
          rintro _ _ ⟨rfl, rfl⟩
          refine ⟨trivial, ?_⟩
          rintro _ _ ⟨_, ⟨_, rfl⟩, rfl⟩
          exact ⟨_, rfl, .removed hlock hstale⟩
    . next hnot =>
      refine ⟨_, rfl, .rests ?_⟩
      intro content' hcontent'
      rw [hlock] at hcontent'
      cases hcontent'
      exact fun h => hnot (hstale.mpr h)

def Vigil.Host.record (host : Host) (around : Surroundings) (token : Text) : Record :=
  ⟨host.pid, around.hostName, token, Moment.iso8601 ⟨around.clock⟩, signed64 around.clock⟩

structure Vigil.Host.Fits (host : Host) (around : Surroundings) : Prop where
  pid : Json.inRange 32 host.pid = true
  hostName : around.hostName.isUtf8 = true

theorem Vigil.Host.Fits.record {around : Surroundings} (h : host.Fits around)
    (htoken : token.isUtf8 = true) : (host.record around token).Fits :=
  Record.fits_of_utf8 ⟨around.clock⟩ h.pid h.hostName htoken

theorem Vigil.Host.Fits.decode_encode {around : Surroundings} (h : host.Fits around)
    (htoken : token.isUtf8 = true) :
    Record.decode (host.record around token).encode = host.record around token :=
  Record.decode_encode_of_fits (h.record htoken)

structure Vigil.Host.Ready (host : Host) (path : Path) (token : Text) (s : Scene) : Prop where
  absent : s.files (File.temporaryPath path token) = none
  fits : host.Fits s.around

theorem Vigil.newRecord_ensures (token : Text) (v : Vigil) :
    Ensures (server host mine mayFail) (newRecord token) v fun outcome v' =>
      v' = v ∧ outcome = .ok (host.record v.scene.around token) := by
  unfold newRecord
  rw [Program.ensures_call_bind]
  refine ⟨trivial, ?_⟩
  rintro ⟨now⟩ _ ⟨rfl, rfl⟩
  rw [Program.ensures_call_bind]
  refine ⟨trivial, ?_⟩
  rintro _ _ ⟨rfl, rfl⟩
  rw [Program.ensures_bind]
  apply (localHostName_ensures _).mono
  rintro _ _ ⟨rfl, rfl⟩
  exact ⟨rfl, rfl⟩

inductive Published (host : Vigil.Host) (mayFail : Prop) (path : Path) (token : Text) (s : Scene) :
    Except Failure Bool → Files → Prop
  | published (h : s.files path = none) :
    Published host mayFail path token s (.ok true)
      (s.files.set path (some (host.record s.around token).encode))
  | present (h : s.files path = none → mayFail) :
    Published host mayFail path token s (.ok false) s.files
  | failed (e : Failure) (hfail : mayFail) :
    Published host mayFail path token s (.error e) s.files

/-- A record is in its temporary file, or everything is as it was. -/
theorem Vigil.writeRecord_ensures {temporary : Path} {record : Record} (hmine : mine temporary)
    (habsent : v.scene.files temporary = none) (hfits : record.Fits) :
    Ensures (server host mine mayFail) (writeRecord temporary record) v fun outcome v' =>
      outcome = .ok () ∧ v' = v.withFiles (v.scene.files.set temporary (some record.encode)) ∨
        mayFail ∧ v' = v ∧ ∃ e, outcome = .error e := by
  unfold writeRecord
  rw [Program.ensures_call_bind]
  refine ⟨hmine, ?_⟩
  rintro opened _ ⟨files, hopened, rfl⟩
  cases opened with
  | false =>
    obtain ⟨hfail, rfl⟩ := hopened
    exact .inr ⟨hfail, rfl, _, rfl⟩
  | true =>
    cases hopened
    rw [serialize_eq_ok_iff.mpr ⟨hfits.utf8, rfl⟩]
    change Ensures _ (World.call (.writeStream temporary record.encode) >>= _) _ _
    rw [Program.ensures_call_bind]
    refine ⟨⟨hmine, by simp [Vigil.withFiles]⟩, ?_⟩
    rintro written _ ⟨files, hwritten, rfl⟩
    cases written with
    | false =>
      obtain ⟨hfail, content, rfl⟩ := hwritten
      refine ⟨⟨hmine, by simp [Vigil.withFiles]⟩, ?_⟩
      rintro _ _ ⟨_, ⟨_, rfl⟩, rfl⟩
      refine .inr ⟨hfail, ?_, _, rfl⟩
      have hclean : (((v.scene.files.set temporary (some [])).set temporary (some content)).set
          temporary none) = v.scene.files := by
        rw [Files.set_set, Files.set_set, Files.set_eq_self habsent]
      exact congrArg v.withFiles hclean
    | true =>
      cases hwritten
      exact .inl ⟨rfl, congrArg v.withFiles (Files.set_set _ _ _ _)⟩

theorem Vigil.tryPublish_ensures (hmine : mine path) (hmine' : mine (File.temporaryPath path token))
    (habsent : v.scene.files (File.temporaryPath path token) = none)
    (hfits : host.Fits v.scene.around) (htoken : token.isUtf8 = true) :
    Ensures (server host mine mayFail) (tryPublish path token) v fun outcome v' =>
      ∃ files attempts, v' = { v.withFiles files with attempts } ∧
        (outcome.isOk = true → attempts = v.attempts + 1) ∧
          Published host mayFail path token v.scene outcome files := by
  have hne := File.temporaryPath_ne path token
  unfold tryPublish
  generalize File.temporaryPath path token = temporary at hmine' habsent hne
  rw [Program.ensures_bind]
  apply (newRecord_ensures token v).mono
  rintro _ v ⟨rfl, rfl⟩
  have hdecode := hfits.decode_encode htoken
  change Ensures _ (writeRecord temporary (host.record v.scene.around token) >>= _) _ _
  rw [Program.ensures_bind]
  apply (writeRecord_ensures hmine' habsent (hfits.record htoken)).mono
  generalize hlock : (host.record v.scene.around token).encode = lock at hdecode
  let after (files : Files) : Vigil := { v.withFiles files with attempts := v.attempts + 1 }
  rintro _ _ (⟨rfl, rfl⟩ | ⟨hfail, rfl, e, rfl⟩)
  rotate_left
  . exact ⟨_, _, rfl, nofun, .failed e hfail⟩
  . change Ensures _ (World.call _ >>= _) _ _
    rw [Program.ensures_call_bind]
    refine ⟨⟨⟨hmine', by simp [Vigil.withFiles]⟩, hmine⟩, ?_⟩
    rintro linked _ ⟨files, hlinked, rfl⟩
    cases linked with
    | error errno =>
      obtain ⟨hreason, rfl⟩ := hlinked
      have hclean : (v.scene.files.set temporary (some lock)).set temporary none =
          v.scene.files := by
        rw [Files.set_set, Files.set_eq_self habsent]
      rw [Program.ensures_call_bind]
      refine ⟨⟨hmine', by simp [Vigil.withFiles]⟩, ?_⟩
      rintro _ _ ⟨_, ⟨_, rfl⟩, rfl⟩
      have hafter := congrArg after hclean
      split
      . refine ⟨_, _, hafter, fun _ => rfl, .present fun hnone => ?_⟩
        obtain hfail | ⟨hsome, _⟩ := hreason
        . exact hfail
        . exact absurd ((Files.set_of_ne hne.symm _ _).trans hnone) hsome
      . next hother heq =>
        cases heq
        obtain hfail | ⟨_, rfl⟩ := hreason
        . exact ⟨_, _, hafter, nofun, .failed _ hfail⟩
        . exact absurd rfl hother
      . next hok => cases hok
    | ok _ =>
      obtain ⟨content, hcontent, hnone, rfl⟩ := hlinked
      cases (Files.set_same _ _ _).symm.trans hcontent
      replace hnone := (Files.set_of_ne hne.symm _ _).symm.trans hnone
      have hclean : ((v.scene.files.set temporary (some lock)).set path (some lock)).set temporary
          none = v.scene.files.set path (some lock) := by
        rw [Files.set_comm hne, Files.set_set, Files.set_eq_self habsent]
      rw [Program.ensures_call_bind]
      refine ⟨⟨hmine', ?_⟩, ?_⟩
      . exact ne_of_eq_of_ne (Files.set_of_ne hne _ _) (by simp [Vigil.withFiles])
      rintro _ _ ⟨_, ⟨_, rfl⟩, rfl⟩
      have hafter := congrArg after hclean
      dsimp only
      rw [Program.ensures_bind]
      apply (readRecord_ensures hmine _).mono
      rintro outcome v' ⟨rfl, hfound⟩
      have hours : (after (v.scene.files.set path (some lock))).scene.files path = some lock :=
        Files.set_same _ _ _
      rw [← hafter] at hours
      replace hfound := hours ▸ hfound
      cases hfound
      refine ⟨_, _, hafter, fun _ => rfl, ?_⟩
      have htoken : ((host.record v.scene.around token).token == token) = true :=
        beq_self_eq_true token
      rw [hdecode, htoken, ← hlock]
      exact .published hnone

def attemptOnce (l : Lease) (token : Text) : Program World Failure Bool := do
  removeIfStale l
  tryPublish l.path token

theorem acquireBy_succ (l : Lease) (token : Text) (timeout deadline : Int) (fuel attempt : Nat) :
    acquireBy l token timeout deadline (fuel + 1) attempt =
      attemptOnce l token >>= fun published =>
        if published then
          Log.debug "Lock acquired" [.text "path" l.path, .int "attempts" attempt]
        else
          World.call .ticks >>= fun now =>
            if deadline ≤ now then timeOut l.path timeout
            else
              wait (min (nanos l.options.retryInterval) (signed64 (deadline - now))) >>= fun _ =>
                acquireBy l token timeout deadline fuel (attempt + 1) := by
  unfold attemptOnce
  rw [Program.bind_assoc]
  rfl

theorem Vigil.timeOut_ensures (hmine : mine path) (timeout : Int) (v : Vigil) :
    Ensures (server host mine mayFail) (timeOut path timeout) v fun outcome v' =>
      v' = v ∧ ∃ e, outcome = .error e ∧
        (¬ mayFail → ∃ holder, e = .lockTimeout path timeout holder) := by
  unfold timeOut Log.error
  rw [Program.ensures_bind]
  apply (readRecord_ensures hmine v).mono
  rintro outcome v ⟨rfl, hfound⟩
  cases outcome with
  | error e =>
    refine ⟨rfl, e, rfl, fun hfair => ?_⟩
    generalize v.scene.files path = content? at hfound
    cases hfound with
    | nothing hfail _ => exact absurd hfail hfair
  | ok record? =>
    change Ensures _ (HasLog.log _ >>= _) _ _
    rw [Program.ensures_bind]
    apply (log_ensures _ _).mono
    rintro _ _ ⟨rfl, rfl⟩
    exact ⟨rfl, _, rfl, fun _ => ⟨_, rfl⟩⟩

/-- To take a lease that is not held is to attempt it with a new token. -/
theorem Vigil.acquire_ensures {l : Lease} {timeout : Int} (hheld : l.isHeld = false)
    {Q : Except Failure Unit → Vigil → Prop}
    (h : (∀ p, mine p → mine (File.temporaryPath p (host.name v.names))) →
      Ensures (server host mine mayFail)
        (acquireBy l (host.name v.names) timeout (signed64 (v.ticks + nanos timeout))
          (l.maxAttempts timeout) 1)
        { v with names := v.names + 1 } Q) :
    Ensures (server host mine mayFail) (l.acquire timeout) v fun outcome v' =>
      ∃ outcome', outcome = outcome'.map (fun _ => { l with token? := some (host.name v.names) }) ∧
        Q outcome' v' := by
  unfold acquire
  rw [hheld, if_neg Bool.false_ne_true, Program.ensures_call_bind]
  refine ⟨trivial, ?_⟩
  rintro _ _ ⟨rfl, rfl⟩
  rw [Program.ensures_call_bind]
  refine ⟨trivial, ?_⟩
  rintro _ _ ⟨⟨hmine, _⟩, rfl, rfl⟩
  rw [Program.ensures_bind]
  apply (h hmine).mono
  intro outcome v' hQ
  cases outcome with
  | error e => exact ⟨.error e, rfl, hQ⟩
  | ok _ => exact ⟨.ok (), rfl, hQ⟩

/-- A lock that is there with the token of a lease is removed with the lease. -/
theorem Vigil.removeOwn_ensures (hmine : mine path) (hlock : v.scene.files path = some content)
    (htoken : (Record.decode content).token = token) :
    Ensures (server host mine mayFail) (removeOwn path token) v fun outcome v' =>
      v' = v.withFiles (v.scene.files.set path none) ∧ outcome = .ok () := by
  unfold removeOwn
  rw [Program.ensures_bind, Program.ensures_attempt]
  apply (readRecord_ensures hmine v).mono
  rintro _ _ ⟨rfl, hfound⟩
  rw [hlock] at hfound
  cases hfound
  change Ensures _ (ite _ _ _) _ _
  rw [if_pos (by simpa using htoken), Program.ensures_call_bind]
  refine ⟨⟨hmine, by simp [hlock]⟩, ?_⟩
  rintro _ _ ⟨_, ⟨rfl, rfl⟩, rfl⟩
  exact log_ensures _ _

end SchemaMigration.Lease

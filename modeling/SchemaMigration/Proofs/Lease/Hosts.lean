import Mathlib.Algebra.Order.Ring.Int
import SchemaMigration.Proofs.Lease.Vigil
import SchemaMigration.Proofs.Observation

/-!
This module contains what becomes of a lock on a host other than that of its holder. Hosts are told
apart by the names that their processes find out, and a host whose name is not found out has the
name `unknown`. Therefore the lock is left to its holder if and only if the two names differ.
-/

namespace SchemaMigration.Lease

open Program (Ensures Exec)

/-- Requests of a process that has some files for itself and is told what `Says` permits. -/
def told (mine : Path → Prop) (Says : (r : World.Request) → World.Reply r → Prop) :
    Server World Files where
  Admits _ _ := True
  Serves r files reply files' := (World.server mine).Serves r files reply files' ∧ Says r reply

structure Site where
  name : Text
  isTold : Bool
  pid : Int
  pid_pos : 0 < pid

namespace Site

def hostName? (s : Site) : Option Text := if s.isTold then some s.name else none

def knownAs (s : Site) : Text :=
  match s.hostName? with
  | none => ascii "unknown"
  | some name => cutHostName name

def Says (s : Site) : (r : World.Request) → World.Reply r → Prop
  | .hostName, reply => reply = s.hostName?
  | .processId, reply => reply = s.pid
  | _, _ => True

/-- A host has a name that leases can tell from that of a host whose name is not found out. -/
structure Named (s : Site) : Prop where
  uncut : cutHostName s.name = s.name
  ne_unknown : s.name ≠ ascii "unknown"

theorem knownAs_ne_iff {a b : Site} (ha : a.Named) (hb : b.Named) (hne : a.name ≠ b.name) :
    a.knownAs ≠ b.knownAs ↔ a.isTold = true ∨ b.isTold = true := by
  unfold knownAs hostName?
  cases a.isTold with
  | false =>
    cases b.isTold with
    | false => simp
    | true => simp [hb.uncut, hb.ne_unknown.symm]
  | true =>
    cases b.isTold with
    | false => simp [ha.uncut, ha.ne_unknown]
    | true => simp [ha.uncut, hb.uncut, hne]

end Site

section

variable {mine : Path → Prop} {Says : (r : World.Request) → World.Reply r → Prop} {s : Site}
  {path : Path} {content token : Text} {files : Files}

theorem readRecord_told (hmine : mine path) (files : Files) :
    Ensures (told mine Says) (readRecord path) files fun outcome files' =>
      files' path = files path ∧
        ∀ record?, outcome = .ok record? → record? = (files path).map Record.decode := by
  unfold readRecord File.readIfExists
  rw [Program.bind_assoc, Program.ensures_call_bind]
  refine ⟨trivial, ?_⟩
  rintro reply files' ⟨⟨edited, hedited, hread, rfl⟩, _⟩
  cases reply with
  | error errno => exact ⟨hedited path hmine, nofun⟩
  | ok content? =>
    refine ⟨hedited path hmine, ?_⟩
    rintro _ ⟨⟩
    rw [hread content? rfl, hedited path hmine]

theorem localHostName_told (files : Files) :
    Ensures (told mine s.Says) localHostName files fun outcome files' =>
      (∀ p, mine p → files' p = files p) ∧ outcome = .ok s.knownAs := by
  unfold localHostName
  rw [Program.ensures_call_bind]
  refine ⟨trivial, ?_⟩
  rintro _ files' ⟨hserves, rfl⟩
  have hsame : ∀ p, mine p → files' p = files p := fun p hp =>
    World.serves_spares hserves hp trivial
  unfold Site.knownAs
  cases s.hostName? with
  | none => exact ⟨hsame, rfl⟩
  | some name => exact ⟨hsame, rfl⟩

theorem newRecord_told (token : Text) (files : Files) :
    Ensures (told mine s.Says) (newRecord token) files fun outcome files' =>
      (∀ p, mine p → files' p = files p) ∧
        ∃ r, outcome = .ok r ∧ r.hostName = s.knownAs ∧ r.pid = s.pid ∧ r.token = token := by
  unfold newRecord
  rw [Program.ensures_call_bind]
  refine ⟨trivial, ?_⟩
  rintro now files₁ ⟨hnow, _⟩
  rw [Program.ensures_call_bind]
  refine ⟨trivial, ?_⟩
  rintro _ files₂ ⟨hpid, rfl⟩
  rw [Program.ensures_bind]
  apply (localHostName_told files₂).mono
  rintro _ files₃ ⟨hsame, rfl⟩
  refine ⟨?_, _, rfl, rfl, rfl, rfl⟩
  intro p hp
  rw [hsame p hp, World.serves_spares hpid hp trivial, World.serves_spares hnow hp trivial]

theorem writeRecord_told (temporary : Path) (r : Record) :
    Ensures (told mine s.Says) (writeRecord temporary r) files fun outcome files' =>
      outcome = .ok () → files' temporary = some r.encode := by
  unfold writeRecord
  rw [Program.ensures_call_bind]
  refine ⟨trivial, ?_⟩
  rintro opened files₁ -
  cases opened with
  | false => exact nofun
  | true =>
    change Ensures _ (Program.ofExcept _ >>= _) _ _
    rw [Program.ensures_bind, Program.ensures_ofExcept]
    cases hserialize : serialize r with
    | error e => exact nofun
    | ok content =>
      obtain ⟨_, rfl⟩ := serialize_eq_ok_iff.mp hserialize
      change Ensures _ (World.call (.writeStream temporary r.encode) >>= _) _ _
      rw [Program.ensures_call_bind]
      refine ⟨trivial, ?_⟩
      rintro written files₂ ⟨⟨edited, _, hwritten⟩, _⟩
      cases written with
      | false =>
        refine ⟨trivial, ?_⟩
        rintro _ _ _
        exact nofun
      | true =>
        intro _
        rw [show files₂ = edited.set _ (some r.encode) from hwritten]
        exact Files.set_same _ _ _

/-- A lock that has been published carries the name of its host and the number of its process. -/
theorem tryPublish_told (hmine : mine path) (hmine' : mine (File.temporaryPath path token))
    (htoken : token ≠ []) :
    Ensures (told mine s.Says) (tryPublish path token) files fun outcome files' =>
      outcome = .ok true → ∃ r : Record, files' path = some r.encode ∧
        Record.decode r.encode = r ∧ r.hostName = s.knownAs ∧ r.pid = s.pid ∧ r.token = token := by
  have hne := File.temporaryPath_ne path token
  unfold tryPublish
  rw [Program.ensures_bind]
  apply (newRecord_told token files).mono
  rintro _ files₁ ⟨_, r, rfl, hname, hpid, htoken'⟩
  change Ensures _ (writeRecord (File.temporaryPath path token) r >>= _) _ _
  rw [Program.ensures_bind]
  apply (writeRecord_told _ r).mono
  rintro written files₂ hwritten
  cases written with
  | error e => exact nofun
  | ok _ =>
    change Ensures _ (World.call _ >>= _) _ _
    rw [Program.ensures_call_bind]
    refine ⟨trivial, ?_⟩
    rintro linked files₃ ⟨⟨edited, hedited, hlinked⟩, _⟩
    rw [Program.ensures_call_bind]
    refine ⟨trivial, ?_⟩
    rintro _ files₄ ⟨hremoved, _⟩
    split
    . exact nofun
    . exact nofun
    . obtain ⟨content, hcontent, _, rfl⟩ := hlinked
      obtain rfl : r.encode = content := by
        rw [hedited _ hmine', hwritten rfl] at hcontent
        exact Option.some.inj hcontent
      have hlock : files₄ path = some r.encode := by
        rw [World.serves_spares hremoved hmine hne.symm, Files.set_same]
      rw [Program.ensures_bind]
      apply (readRecord_told hmine files₄).mono
      rintro outcome files₅ ⟨hsame, hread⟩
      cases outcome with
      | error e => exact nofun
      | ok record? =>
        obtain rfl := hread record? rfl
        rw [hlock]
        intro houtcome
        refine ⟨r, hsame.trans hlock, ?_, hname, hpid, htoken'⟩
        -- A record whose numbers are too large is read back as one without a token.
        refine (Record.decode_encode r).resolve_right fun hempty => htoken ?_
        have hback : (Record.decode r.encode).token = token := by simpa using houtcome
        rw [← hback, hempty]
        rfl

def maxAge : Int := 2 ^ 63 - 1

theorem signed64_le_maxAge (n : Int) : signed64 n ≤ maxAge := by
  have hlt : signed64 n < (((1 <<< 64 : Nat) : Int) + 1) / 2 := Int.bmod_lt (by decide)
  exact Int.le_of_lt_add_one hlt

/-- A lock of another name is not stale, nor is one if the timeout is as long as can be. -/
theorem isStaleRecord_told {r : Record} {options : Options}
    (h : r.hostName ≠ s.knownAs ∨ maxAge ≤ options.timeout) (files : Files) :
    Ensures (told mine s.Says) (isStaleRecord options r) files fun outcome files' =>
      (∀ p, mine p → files' p = files p) ∧ outcome = .ok false := by
  unfold isStaleRecord
  split
  . exact ⟨fun _ _ => rfl, rfl⟩
  rw [Program.ensures_call_bind]
  refine ⟨trivial, ?_⟩
  rintro now files₁ ⟨hnow, _⟩
  have hsame : ∀ p, mine p → files₁ p = files p := fun p hp =>
    World.serves_spares hnow hp trivial
  split
  . exact ⟨hsame, rfl⟩
  next hage =>
  have hname : r.hostName ≠ s.knownAs := by
    refine h.resolve_right fun htimeout => hage ?_
    exact Int.le_trans (signed64_le_maxAge _) htimeout
  rw [Program.ensures_bind]
  apply (localHostName_told files₁).mono
  rintro _ files₂ ⟨hsame', rfl⟩
  change Ensures _ (ite _ _ _) _ _
  rw [if_pos (by simpa using hname)]
  exact ⟨fun p hp => (hsame' p hp).trans (hsame p hp), rfl⟩

theorem removeIfStale_told {options : Options} (hmine : mine path)
    (hlock : files path = some content)
    (h : (Record.decode content).hostName ≠ s.knownAs ∨ maxAge ≤ options.timeout) :
    Ensures (told mine s.Says) (removeIfStale (.new path options)) files fun _ files' =>
      files' path = some content := by
  unfold removeIfStale
  rw [Program.ensures_bind]
  apply (readRecord_told hmine files).mono
  rintro outcome files₁ ⟨hsame, hread⟩
  cases outcome with
  | error e => exact hsame.trans hlock
  | ok record? =>
    obtain rfl := hread record? rfl
    rw [hlock]
    change Ensures _ (isStaleRecord _ _ >>= _) _ _
    rw [Program.ensures_bind]
    apply (isStaleRecord_told h files₁).mono
    rintro _ files₂ ⟨hsame', rfl⟩
    exact (hsame' path hmine).trans (hsame.trans hlock)

end

namespace Surroundings

def answer (e : Surroundings) (pid : Int) :
    (r : World.Request) → Files → World.Reply r × Files
  | .now, files => (⟨e.clock⟩, files)
  | .hostName, files => (e.hostName?, files)
  | .isAlive pid, files => (e.isAlive pid, files)
  | .processId, files => (pid, files)
  | r, files => World.obliging [] r files

variable {e : Surroundings} {s : Site} {options : Options} {path : Path} {content : Text}
  {files : Files}

theorem exec_answer {ε α : Type} {p : Program World ε α} {outcome : Except ε α} {files' : Files}
    (hname : e.hostName? = s.hostName?)
    (h : p.run (e.answer s.pid) files = (outcome, files')) (mine : Path → Prop) :
    Exec (told mine s.Says) p files outcome files' := by
  suffices hserves : ∀ r files, (told mine s.Says).Serves r files (e.answer s.pid r files).1
      (e.answer s.pid r files).2 by
    have hexec := Exec.run hserves p files
    rw [h] at hexec
    exact hexec
  intro r files
  cases r with
  | hostName => exact ⟨⟨files, fun _ _ => rfl, rfl⟩, hname⟩
  | now | isAlive | processId => exact ⟨⟨files, fun _ _ => rfl, rfl⟩, by trivial⟩
  | _ => exact ⟨World.obliging_serves [] _ files, trivial⟩

theorem run_localHostName (pid : Int) (files : Files) :
    localHostName.run (e.answer pid) files = (.ok e.hostName, files) := by
  obtain ⟨clock, hostName?, isAlive⟩ := e
  cases hostName? with
  | none => rfl
  | some name => rfl

theorem run_isStaleRecord {r : Record} (h : e.Stale options r) (pid : Int) (files : Files) :
    (isStaleRecord options r).run (e.answer pid) files = (.ok true, files) := by
  unfold isStaleRecord
  rw [if_neg (by simpa using h.token)]
  change Program.run _ (ite (e.age r ≤ options.timeout) _ _) files = _
  rw [if_neg (Int.not_le.mpr h.age), Program.run_bind_of_ok (run_localHostName pid files),
    if_neg (by simp [h.hostName]), if_neg (Int.not_le.mpr h.pid)]
  change (Except.ok (!e.isAlive r.pid), files) = _
  rw [h.dead]
  rfl

theorem run_readRecord (hlock : files path = some content) (pid : Int) :
    (readRecord path).run (e.answer pid) files = (.ok (some (.decode content)), files) := by
  change (Except.ok ((files path).map Record.decode), files) = _
  rw [hlock]
  rfl

theorem run_removeToken (hlock : files path = some content) (pid : Int) :
    (removeToken path (Record.decode content).token).run (e.answer pid) files =
      (.ok (), files.set path none) := by
  unfold removeToken
  rw [Program.run_bind_of_ok (run_readRecord hlock pid)]
  dsimp only
  rw [if_neg (by simp)]
  rfl

/-- A lock that is stale is removed. -/
theorem run_removeIfStale (h : e.Stale options (.decode content))
    (hlock : files path = some content) (pid : Int) :
    (removeIfStale (.new path options)).run (e.answer pid) files =
      (.ok (), (withGuard path files).set path none) := by
  have hlock' : withGuard path files path = some content := by
    rw [withGuard_of_ne (guardPath_ne path).symm, hlock]
  unfold removeIfStale
  refine (Program.run_bind_of_ok (run_readRecord hlock pid) _).trans ?_
  refine (Program.run_bind_of_ok (run_isStaleRecord h pid files) _).trans ?_
  rw [if_pos rfl]
  exact Program.run_andFinally (run_removeToken hlock' pid) rfl

/-- A lock of a name that is known goes stale, unless the timeout is as long as can be. -/
theorem exists_stale {r : Record} (htoken : r.token ≠ []) (hpid : 0 < r.pid)
    (h : ¬ (r.hostName ≠ s.knownAs ∨ maxAge ≤ options.timeout)) :
    ∃ e : Surroundings, e.hostName? = s.hostName? ∧ e.Stale options r := by
  rw [not_or, not_not, Int.not_le] at h
  obtain ⟨hname, htimeout⟩ := h
  refine ⟨⟨r.acquiredAtMillis + maxAge, s.hostName?, fun _ => false⟩, rfl, ?_⟩
  exact {
    token := htoken
    age := by
      have hage : r.acquiredAtMillis + maxAge - r.acquiredAtMillis = maxAge := by omega
      have hsigned : signed64 maxAge = maxAge := by decide
      change options.timeout < signed64 (r.acquiredAtMillis + maxAge - r.acquiredAtMillis)
      rw [hage, hsigned]
      exact htimeout
    hostName := hname
    pid := hpid
    dead := rfl }

end Surroundings

namespace Site

def Respects (s : Site) (options : Options) (r : Record) : Prop :=
  ∀ mine files outcome files',
    Exec (told mine s.Says) (isStaleRecord options r) files outcome files' → outcome = .ok false

def Leaves (s : Site) (options : Options) (path : Path) (content : Text) : Prop :=
  ∀ files outcome files', files path = some content →
    Exec (told (· = path) s.Says) (removeIfStale (.new path options)) files outcome files' →
    files' path = some content

variable {s : Site} {options : Options} {path : Path} {content : Text} {r : Record}

theorem respects_iff (htoken : r.token ≠ []) (hpid : 0 < r.pid) :
    s.Respects options r ↔ r.hostName ≠ s.knownAs ∨ maxAge ≤ options.timeout := by
  constructor
  . intro h
    by_contra hknown
    obtain ⟨e, he, hstale⟩ := Surroundings.exists_stale htoken hpid hknown
    have hrun := Surroundings.run_isStaleRecord hstale s.pid fun _ => none
    cases h _ _ _ _ (Surroundings.exec_answer he hrun fun _ => True)
  . intro h mine files outcome files' hexec
    exact ((isStaleRecord_told h files).of_exec hexec).2

theorem leaves_iff (hdecode : Record.decode content = r) (htoken : r.token ≠ [])
    (hpid : 0 < r.pid) :
    s.Leaves options path content ↔ r.hostName ≠ s.knownAs ∨ maxAge ≤ options.timeout := by
  subst hdecode
  constructor
  . intro h
    by_contra hknown
    obtain ⟨e, he, hstale⟩ := Surroundings.exists_stale htoken hpid hknown
    let files : Files := Files.set (fun _ => none) path (some content)
    have hlock : files path = some content := Files.set_same _ _ _
    have hrun := Surroundings.run_removeIfStale hstale hlock s.pid
    have hkept := h _ _ _ hlock (Surroundings.exec_answer he hrun (· = path))
    cases (Files.set_same _ _ _).symm.trans hkept
  . intro h files outcome files' hlock hexec
    have hkept : Ensures (told (· = path) s.Says) (removeIfStale (.new path options)) files
        fun _ files' => files' path = some content := removeIfStale_told rfl hlock h
    exact hkept.of_exec hexec

/--
A process on one host has published a lock. A process on another host judges that it may not be
replaced, and leaves the lock file as it is, at any time and whatever processes are alive there, if
and only if leases know the two hosts by different names; but for a timeout that no lock outlives.
Of two hosts with different names that is so unless neither of the processes is told its name.
-/
theorem foreign_lock_respected_iff {a b : Site} {token : Text} {files files' : Files}
    (htoken : token ≠ [])
    (hexec : Exec (told (fun p => p = path ∨ p = File.temporaryPath path token) a.Says)
      (tryPublish path token) files (.ok true) files') :
    (∃ content, files' path = some content ∧ ∀ options : Options,
      (b.Respects options (.decode content) ↔
        a.knownAs ≠ b.knownAs ∨ maxAge ≤ options.timeout) ∧
      (b.Leaves options path content ↔ a.knownAs ≠ b.knownAs ∨ maxAge ≤ options.timeout)) ∧
    (a.Named → b.Named → a.name ≠ b.name →
      (a.knownAs ≠ b.knownAs ↔ a.isTold = true ∨ b.isTold = true)) := by
  refine ⟨?_, knownAs_ne_iff⟩
  obtain ⟨r, hlock, hdecode, hname, hpid, htoken'⟩ :=
    (tryPublish_told (.inl rfl) (.inr rfl) htoken).of_exec hexec rfl
  refine ⟨r.encode, hlock, fun options => ?_⟩
  have hpos : 0 < r.pid := hpid ▸ a.pid_pos
  have hne : r.token ≠ [] := htoken' ▸ htoken
  rw [hdecode, ← hname]
  exact ⟨respects_iff hne hpos, leaves_iff hdecode hne hpos⟩

def alpha (isTold : Bool) : Site := ⟨ascii "alpha", isTold, 7, by decide⟩

def beta : Site := ⟨ascii "beta", false, 8, by decide⟩

theorem named_alpha (isTold : Bool) : (alpha isTold).Named where
  uncut := rfl
  ne_unknown := show ascii "alpha" ≠ ascii "unknown" by decide

theorem named_beta : beta.Named := ⟨rfl, by decide⟩

theorem exec_tryPublish_alpha (isTold : Bool) :
    ∃ files', Exec (told (fun p => p = ascii "x.lock" ∨
      p = File.temporaryPath (ascii "x.lock") (ascii "t")) (alpha isTold).Says)
      (tryPublish (ascii "x.lock") (ascii "t")) (fun _ => none) (.ok true) files' := by
  let e : Surroundings := ⟨0, (alpha isTold).hostName?, fun _ => true⟩
  have he : e.hostName? = (alpha isTold).hostName? := rfl
  have hrun : ((tryPublish (ascii "x.lock") (ascii "t")).run (e.answer 7) fun _ => none).1 =
      .ok true := by
    apply eq_ok_of_toOption
    cases isTold with
    | false => decide +kernel
    | true => decide +kernel
  exact ⟨_, Surroundings.exec_answer he (Prod.ext hrun rfl) _⟩

/-- The lock of a process that is told the name of its host, beside one that is not. -/
theorem foreign_lock_respected_by_unnamed :
    ∃ files' content,
      Exec (told (fun p => p = ascii "x.lock" ∨
        p = File.temporaryPath (ascii "x.lock") (ascii "t")) (alpha true).Says)
        (tryPublish (ascii "x.lock") (ascii "t")) (fun _ => none) (.ok true) files' ∧
      files' (ascii "x.lock") = some content ∧
      beta.Respects ⟨30000, 100⟩ (.decode content) ∧
      beta.Leaves ⟨30000, 100⟩ (ascii "x.lock") content := by
  obtain ⟨files', hexec⟩ := exec_tryPublish_alpha true
  obtain ⟨⟨content, hlock, hlocked⟩, hnames⟩ :=
    foreign_lock_respected_iff (b := beta) (by decide) hexec
  have hne : (alpha true).knownAs ≠ beta.knownAs :=
    (hnames (named_alpha true) named_beta (by decide)).mpr (.inl rfl)
  obtain ⟨hrespects, hleaves⟩ := hlocked ⟨30000, 100⟩
  exact ⟨files', content, hexec, hlock, hrespects.mpr (.inl hne), hleaves.mpr (.inl hne)⟩

/--
Two hosts have different names, but neither process is told its own. The lock of the one is stale to
the other, which removes it.
-/
theorem foreign_lock_removed_between_unnamed :
    (alpha false).Named ∧ beta.Named ∧ (alpha false).name ≠ beta.name ∧
    ∃ files' content files'',
      Exec (told (fun p => p = ascii "x.lock" ∨
        p = File.temporaryPath (ascii "x.lock") (ascii "t")) (alpha false).Says)
        (tryPublish (ascii "x.lock") (ascii "t")) (fun _ => none) (.ok true) files' ∧
      files' (ascii "x.lock") = some content ∧
      Exec (told (· = ascii "x.lock") beta.Says) (isStaleRecord ⟨30000, 100⟩ (.decode content))
        files' (.ok true) files' ∧
      Exec (told (· = ascii "x.lock") beta.Says)
        (removeIfStale (.new (ascii "x.lock") ⟨30000, 100⟩)) files' (.ok ()) files'' ∧
      files'' (ascii "x.lock") = none := by
  refine ⟨named_alpha false, named_beta, by decide, ?_⟩
  obtain ⟨files', hexec⟩ := exec_tryPublish_alpha false
  obtain ⟨r, hlock, hdecode, hname, hpid, htoken⟩ :=
    (tryPublish_told (.inl rfl) (.inr rfl) (by decide)).of_exec hexec rfl
  have hknown : ¬ (r.hostName ≠ beta.knownAs ∨ maxAge ≤ (⟨30000, 100⟩ : Options).timeout) := by
    rw [hname]
    decide
  obtain ⟨e, he, hstale⟩ :=
    Surroundings.exists_stale (by rw [htoken]; decide) (hpid ▸ (alpha false).pid_pos) hknown
  rw [← hdecode] at hstale
  have hjudged := Surroundings.run_isStaleRecord hstale beta.pid files'
  have hremoved := Surroundings.run_removeIfStale hstale hlock beta.pid
  exact ⟨files', _, _, hexec, hlock, Surroundings.exec_answer he hjudged _,
    Surroundings.exec_answer he hremoved _, Files.set_same _ _ _⟩

end Site

end SchemaMigration.Lease

import SchemaMigration.Proofs.Lease.Fleet
import SchemaMigration.Proofs.Lease.Protocol
import SchemaMigration.Proofs.Lease.Record

/-!
This module contains that what every lease knows is true, and stays true whatever the others do.
-/

namespace SchemaMigration.Lease.Fleet

variable {ι π η : Type} {f : Fleet ι π η}

def identity (f : Fleet ι π η) (i : ι) : Identity :=
  ⟨f.path, cutHostName (f.hostName (f.hostOf i)), f.pid (f.process i)⟩

def Attributed (f : Fleet ι π η) (alive : ι → Prop) (know : ι → Knowledge) (tokens : List Text)
    (r : Record) : Prop :=
  r.token ≠ [] → r.token ∈ tokens ∧
    ∀ i, alive i → (know i).token? = some r.token →
      r.hostName = (f.identity i).hostName ∧ r.pid = (f.identity i).pid

/-- A token that no lease has, and that none will draw. -/
def Gone (alive : ι → Prop) (know : ι → Knowledge) (tokens : List Text) (token : Text) : Prop :=
  token ≠ [] ∧ token ∈ tokens ∧ ∀ i, alive i → (know i).token? ≠ some token

structure Valid (f : Fleet ι π η) (alive : ι → Prop) (know : ι → Knowledge) (s : Shared ι) (i : ι)
    (k : Knowledge) : Prop where
  written : ∀ r, k.written? = some r →
    (f.identity i).Signs k.token? r ∧ s.files (File.temporaryPath f.path r.token) = some r.encode
  lock : ∀ r, k.lock? = some r → (f.identity i).Signs k.token? r ∧ s.files f.path = some r.encode
  seen : ∀ r, k.seen? = some r → f.Attributed alive know s.tokens r
  gone : ∀ token, k.gone? = some token → Gone alive know s.tokens token
  guarded : k.guarded = true → s.guard? (guardPath f.path) = some i
  confirmed : k.confirmed = true → k.guarded = true ∧ ∃ token content,
    k.gone? = some token ∧ s.files f.path = some content ∧ (Record.decode content).token = token

structure Coherent (f : Fleet ι π η) (alive : ι → Prop) (know : ι → Knowledge) (s : Shared ι) :
    Prop where
  valid : ∀ i, alive i → f.Valid alive know s i (know i)
  lock : ∀ content, s.files f.path = some content →
    f.Attributed alive know s.tokens (Record.decode content)
  drawn : ∀ i token, (know i).token? = some token → token ∈ s.tokens
  distinct : ∀ i j token, (know i).token? = some token → (know j).token? = some token → i = j

structure Later (alive : ι → Prop) (know : ι → Knowledge) (tokens : List Text)
    (alive' : ι → Prop) (know' : ι → Knowledge) (tokens' : List Text) : Prop where
  dies : ∀ i, alive' i → alive i
  keeps : ∀ token ∈ tokens, token ∈ tokens'
  draws : ∀ i, ∀ token ∈ tokens, (know' i).token? = some token → (know i).token? = some token

variable {alive alive' : ι → Prop} {know know' : ι → Knowledge} {s s' : Shared ι} {i j : ι}
  {k : Knowledge} {tokens tokens' : List Text}

theorem Attributed.later {r : Record} (h : f.Attributed alive know tokens r)
    (hlater : Later alive know tokens alive' know' tokens') :
    f.Attributed alive' know' tokens' r := by
  intro hne
  obtain ⟨hmem, hnames⟩ := h hne
  refine ⟨hlater.keeps _ hmem, ?_⟩
  intro j hj htoken
  exact hnames j (hlater.dies j hj) (hlater.draws j _ hmem htoken)

theorem Gone.later {token : Text} (h : Gone alive know tokens token)
    (hlater : Later alive know tokens alive' know' tokens') :
    Gone alive' know' tokens' token := by
  obtain ⟨hne, hmem, hgone⟩ := h
  refine ⟨hne, hlater.keeps _ hmem, ?_⟩
  intro j hj htoken
  exact hgone j (hlater.dies j hj) (hlater.draws j _ hmem htoken)

/-- What a lease knows stays true as long as nobody touches its files and its guard. -/
theorem Valid.later (h : f.Valid alive know s i k)
    (hlater : Later alive know s.tokens alive' know' s'.tokens)
    (hwritten : ∀ r, k.written? = some r →
      s'.files (File.temporaryPath f.path r.token) = s.files (File.temporaryPath f.path r.token))
    (hlock : k.lock? ≠ none ∨ k.confirmed = true → s'.files f.path = s.files f.path)
    (hguard : k.guarded = true → s'.guard? (guardPath f.path) = s.guard? (guardPath f.path)) :
    f.Valid alive' know' s' i k where
  written r hr := by
    rw [hwritten r hr]
    exact h.written r hr
  lock r hr := by
    rw [hlock (Or.inl (by rw [hr]; exact Option.some_ne_none r))]
    exact h.lock r hr
  seen r hr := (h.seen r hr).later hlater
  gone token htoken := (h.gone token htoken).later hlater
  guarded hk := by
    rw [hguard hk]
    exact h.guarded hk
  confirmed hk := by
    rw [hlock (Or.inr hk)]
    exact h.confirmed hk

theorem Valid.forgetWritten (h : f.Valid alive know s i k) :
    f.Valid alive know s i { k with written? := none } :=
  { h with written := nofun }

theorem Valid.files_ne_none (h : f.Valid alive know s i k)
    (hk : k.lock? ≠ none ∨ k.confirmed = true) : s.files f.path ≠ none := by
  cases hk with
  | inl hlock =>
    obtain ⟨r, hr⟩ := Option.ne_none_iff_exists'.mp hlock
    rw [(h.lock r hr).2]
    exact Option.some_ne_none _
  | inr hconfirmed =>
    obtain ⟨_, _, content, _, hcontent, _⟩ := h.confirmed hconfirmed
    rw [hcontent]
    exact Option.some_ne_none _

theorem Coherent.attributed_encode (h : f.Coherent alive know s) {r : Record}
    (hsigns : (f.identity i).Signs (know i).token? r) :
    f.Attributed alive know s.tokens (Record.decode r.encode) := by
  cases Record.decode_encode r with
  | inl hdecode =>
    rw [hdecode]
    intro _
    refine ⟨h.drawn i _ hsigns.token, ?_⟩
    intro j _ hj
    rw [h.distinct j i _ hj hsigns.token]
    exact ⟨hsigns.hostName, hsigns.pid⟩
  | inr hdecode =>
    -- A record that cannot be read back counts as one without a token, which names nobody.
    rw [hdecode]
    intro hne
    exact absurd rfl hne

theorem Coherent.not_confirmed (h : f.Coherent alive know s) (hi : alive i) (hj : alive j)
    {r : Record} (hlock : (know i).lock? = some r) : (know j).confirmed = false := by
  by_contra hconfirmed
  obtain ⟨_, token, content, htoken, hcontent, hcarries⟩ :=
    (h.valid j hj).confirmed (by simpa using hconfirmed)
  obtain ⟨hne, _, hgone⟩ := (h.valid j hj).gone token htoken
  obtain ⟨hsigns, hfile⟩ := (h.valid i hi).lock r hlock
  -- There is one lock file, so the token that `j` takes for gone is the one that `i` has.
  obtain rfl : content = r.encode := Option.some.inj (hcontent.symm.trans hfile)
  cases Record.decode_encode r with
  | inl hdecode =>
    rw [hdecode] at hcarries
    exact hgone i hi (by rw [hsigns.token, hcarries])
  | inr hdecode =>
    rw [hdecode] at hcarries
    exact hne hcarries.symm

/-- At most one lease may remove the lock. -/
theorem Coherent.unique (h : f.Coherent alive know s) (hi : alive i) (hj : alive j)
    (hki : (know i).lock? ≠ none ∨ (know i).confirmed = true)
    (hkj : (know j).lock? ≠ none ∨ (know j).confirmed = true) : i = j := by
  cases hri : (know i).lock? with
  | some ri =>
    have hnot := h.not_confirmed hi hj hri
    cases hrj : (know j).lock? with
    | some rj =>
      -- Both have their record in the lock file, so both have the token in it.
      obtain ⟨hsigns, hfile⟩ := (h.valid i hi).lock ri hri
      obtain ⟨hsigns', hfile'⟩ := (h.valid j hj).lock rj hrj
      have htoken : ri.token = rj.token :=
        Record.token_eq_of_encode_eq (Option.some.inj (hfile.symm.trans hfile'))
      exact h.distinct i j ri.token hsigns.token (by rw [hsigns'.token, htoken])
    | none => simp [hrj, hnot] at hkj
  | none =>
    have hconfirmed : (know i).confirmed = true := by simpa [hri] using hki
    cases hrj : (know j).lock? with
    | some rj => simp [h.not_confirmed hj hi hrj] at hconfirmed
    | none =>
      -- Both have confirmed that the lock is stale, which takes the guard.
      have hconfirmed' : (know j).confirmed = true := by simpa [hrj] using hkj
      have hguard := (h.valid i hi).guarded ((h.valid i hi).confirmed hconfirmed).1
      have hguard' := (h.valid j hj).guarded ((h.valid j hj).confirmed hconfirmed').1
      exact Option.some.inj (hguard.symm.trans hguard')

theorem Coherent.change (h : f.Coherent alive know s) (htokens : s'.tokens = s.tokens)
    (hwritten : ∀ j, alive j → ∀ r, (know j).written? = some r →
      s'.files (File.temporaryPath f.path r.token) = s.files (File.temporaryPath f.path r.token))
    (hlock : ∀ j, alive j → (know j).lock? ≠ none ∨ (know j).confirmed = true →
      s'.files f.path = s.files f.path)
    (hguard : ∀ j, alive j → (know j).guarded = true →
      s'.guard? (guardPath f.path) = s.guard? (guardPath f.path))
    (hcontent : ∀ content, s'.files f.path = some content →
      f.Attributed alive know s.tokens (Record.decode content)) :
    f.Coherent alive know s' where
  valid j hj := by
    apply (h.valid j hj).later
    . rw [htokens]
      exact ⟨fun _ => id, fun _ => id, fun _ _ _ => id⟩
    . exact hwritten j hj
    . exact hlock j hj
    . exact hguard j hj
  lock content hfile := by
    rw [htokens]
    exact hcontent content hfile
  drawn j token htoken := by
    rw [htokens]
    exact h.drawn j token htoken
  distinct := h.distinct

/-- Leases die, and their guards are dropped. -/
theorem Coherent.die (h : f.Coherent alive know s) (halive : ∀ j, alive' j → alive j)
    (htokens : s'.tokens = s.tokens) (hfiles : s'.files = s.files)
    (hguard : ∀ j, alive' j → (know j).guarded = true →
      s'.guard? (guardPath f.path) = s.guard? (guardPath f.path)) :
    f.Coherent alive' know s' := by
  have hlater : Later alive know s.tokens alive' know s'.tokens := by
    rw [htokens]
    exact ⟨halive, fun _ => id, fun _ _ _ => id⟩
  refine ⟨?_, ?_, ?_, h.distinct⟩
  . intro j hj
    apply (h.valid j (halive j hj)).later hlater
    . intro r _
      rw [hfiles]
    . intro _
      rw [hfiles]
    . exact hguard j hj
  . intro content hcontent
    rw [hfiles] at hcontent
    exact (h.lock content hcontent).later hlater
  . intro j token htoken
    rw [htokens]
    exact h.drawn j token htoken

/-- The holder of a lock is gone if no process of the number in it runs on the host in it. -/
theorem Coherent.gone_of_seenToken? (h : f.Coherent alive know s) (hi : alive i)
    {status : π → Status}
    (hstarted : ∀ j, alive j → (know j).token? ≠ none → status (f.process j) = .running) {pid : Int}
    (hdead : ∀ p, status p = .running → f.host p = f.hostOf i → f.pid p ≠ pid) {token : Text}
    (htoken : (f.identity i).seenToken? (know i) pid = some token) :
    Gone alive know s.tokens token := by
  obtain ⟨r, hr, rfl⟩ := Option.map_eq_some_iff.mp htoken
  obtain ⟨hseen, hmatch⟩ := Option.filter_eq_some_iff.mp hr
  obtain ⟨hpid, hhostName, hne⟩ := of_decide_eq_true hmatch
  obtain ⟨hmem, hnames⟩ := (h.valid i hi).seen r hseen hne
  refine ⟨hne, hmem, ?_⟩
  intro j hj hj'
  obtain ⟨hhost, hnumber⟩ := hnames j hj hj'
  have hruns := hstarted j hj (by rw [hj']; exact Option.some_ne_none _)
  have hsame : f.hostOf j = f.hostOf i := f.hostName_injective (hhost.symm.trans hhostName)
  exact hdead (f.process j) hruns hsame (hnumber.symm.trans hpid)

section Update

variable [DecidableEq ι]

theorem token?_update (htoken : k.token? = (know i).token?) (j : ι) :
    (Function.update know i k j).token? = (know j).token? := by
  by_cases hj : j = i
  . rw [hj, Function.update_self, htoken]
  . rw [Function.update_of_ne hj]

theorem later_update (htoken : k.token? = (know i).token?) :
    Later alive know tokens alive (Function.update know i k) tokens := by
  refine ⟨fun _ => id, fun _ => id, ?_⟩
  intro j token _ hj
  rwa [token?_update htoken] at hj

theorem Coherent.learn (h : f.Coherent alive know s) (htoken : k.token? = (know i).token?)
    (hk : alive i → f.Valid alive know s i k) :
    f.Coherent alive (Function.update know i k) s where
  valid j hj := by
    have hvalid : f.Valid alive know s j (Function.update know i k j) := by
      by_cases hji : j = i
      . rw [hji, Function.update_self]
        exact hk (hji ▸ hj)
      . rw [Function.update_of_ne hji]
        exact h.valid j hj
    exact hvalid.later (later_update htoken) (fun _ _ => rfl) (fun _ => rfl) (fun _ => rfl)
  lock content hcontent := (h.lock content hcontent).later (later_update htoken)
  drawn j token hj := by
    rw [token?_update htoken] at hj
    exact h.drawn j token hj
  distinct j j' token hj hj' := by
    rw [token?_update htoken] at hj hj'
    exact h.distinct j j' token hj hj'

/-- A lease draws a token that nobody had before, and forgets all else. -/
theorem Coherent.draw (h : f.Coherent alive know s) {token : Text} (htoken : token ∉ s.tokens) :
    f.Coherent alive (Function.update know i { token? := some token })
      { s with tokens := token :: s.tokens } := by
  -- Whoever has a token had it before, unless it is the new token of `i`.
  have hcases : ∀ j other,
      (Function.update know i { token? := some token } j).token? = some other →
        j = i ∧ other = token ∨ (know j).token? = some other := by
    intro j other hj
    by_cases hji : j = i
    . rw [hji, Function.update_self] at hj
      exact Or.inl ⟨hji, (Option.some.inj hj).symm⟩
    . rw [Function.update_of_ne hji] at hj
      exact Or.inr hj
  have hlater : Later alive know s.tokens alive
      (Function.update know i { token? := some token }) (token :: s.tokens) := by
    refine ⟨fun _ => id, fun _ => List.mem_cons_of_mem token, ?_⟩
    intro j other hmem hj
    cases hcases j other hj with
    | inl hnew => exact absurd (hnew.2 ▸ hmem) htoken
    | inr hold => exact hold
  refine ⟨?_, ?_, ?_, ?_⟩
  . intro j hj
    by_cases hji : j = i
    . rw [hji, Function.update_self]
      exact ⟨nofun, nofun, nofun, nofun, nofun, nofun⟩
    . rw [Function.update_of_ne hji]
      exact (h.valid j hj).later hlater (fun _ _ => rfl) (fun _ => rfl) (fun _ => rfl)
  . intro content hcontent
    exact (h.lock content hcontent).later hlater
  . intro j other hj
    cases hcases j other hj with
    | inl hnew =>
      rw [hnew.2]
      exact List.mem_cons_self
    | inr hold => exact List.mem_cons_of_mem token (h.drawn j other hold)
  . intro j j' other hj hj'
    cases hcases j other hj with
    | inl hnew =>
      cases hcases j' other hj' with
      | inl hnew' => exact hnew.1.trans hnew'.1.symm
      | inr hold' => exact absurd (hnew.2 ▸ h.drawn j' other hold') htoken
    | inr hold =>
      cases hcases j' other hj' with
      | inl hnew' => exact absurd (hnew'.2 ▸ h.drawn j other hold) htoken
      | inr hold' => exact h.distinct j j' other hold hold'

theorem temporaryPath_injective {path : Path} {token token' : Text}
    (h : File.temporaryPath path token = File.temporaryPath path token') : token = token' := by
  simpa [File.temporaryPath] using h

theorem guardPath_ne (path : Path) : guardPath path ≠ path := by
  intro h
  have := congrArg List.length h
  simp [guardPath, ascii] at this

theorem guardPath_ne_temporaryPath (path : Path) (token : Text) :
    guardPath path ≠ File.temporaryPath path token := by
  intro h
  have hguard : (guardPath path).getLast? = some (byte 'r') := by
    rw [guardPath, List.getLast?_append]
    rfl
  have htemporary : (File.temporaryPath path token).getLast? = some (byte 'p') := by
    rw [File.temporaryPath, List.getLast?_append]
    rfl
  rw [h, htemporary] at hguard
  revert hguard
  decide

def Keeps (f : Fleet ι π η) (alive : ι → Prop) (know : ι → Knowledge) (i : ι) (r : World.Request)
    (reply : World.Reply r) (s' : Shared ι) : Prop :=
  ∃ k, (f.identity i).Serves r (know i) reply k ∧ f.Coherent alive (Function.update know i k) s'

theorem Coherent.same (h : f.Coherent alive know s) :
    f.Coherent alive (Function.update know i (know i)) s := by
  rwa [Function.update_eq_self]

theorem Coherent.setTemporary (h : f.Coherent alive know s) {token : Text}
    (htoken : (know i).token? = some token) (content? : Option Text) :
    f.Coherent alive (Function.update know i { know i with written? := none })
      { s with files := s.files.set (File.temporaryPath f.path token) content? } := by
  have hpath := Files.set_of_ne (File.temporaryPath_ne f.path token).symm s.files content?
  have hforget : f.Coherent alive (Function.update know i { know i with written? := none }) s :=
    h.learn rfl fun hi => (h.valid i hi).forgetWritten
  refine hforget.change rfl ?_ ?_ ?_ ?_
  . intro j hj r hr
    apply Files.set_of_ne
    intro heq
    by_cases hji : j = i
    . rw [hji, Function.update_self] at hr
      cases hr
    . -- A lease with a record of its own at this path would have drawn the same token.
      rw [Function.update_of_ne hji] at hr
      have hr' := ((h.valid j hj).written r hr).1.token
      rw [temporaryPath_injective heq] at hr'
      exact hji (h.distinct j i token hr' htoken)
  . intro j _ _
    exact hpath
  . intro j _ _
    rfl
  . intro content hcontent
    exact hforget.lock content (hpath.symm.trans hcontent)

theorem keeps_openStream (h : f.Coherent alive know s) {token : Text}
    (htoken : (know i).token? = some token)
    {reply : World.Reply (.openStream (File.temporaryPath f.path token))} {files : Files}
    (heffect : World.Effect (.openStream (File.temporaryPath f.path token)) reply s.files files) :
    f.Keeps alive know i (.openStream (File.temporaryPath f.path token)) reply
      { s with files } := by
  cases reply with
  | false =>
    obtain rfl : files = s.files := heffect
    exact ⟨_, rfl, h.learn rfl fun hi => (h.valid i hi).forgetWritten⟩
  | true =>
    obtain rfl := heffect
    exact ⟨_, rfl, h.setTemporary htoken (some [])⟩

theorem keeps_writeStream (h : f.Coherent alive know s) {r : Record}
    (hsigns : (f.identity i).Signs (know i).token? r)
    {reply : World.Reply (.writeStream (File.temporaryPath f.path r.token) r.encode)}
    {files : Files}
    (heffect :
      World.Effect (.writeStream (File.temporaryPath f.path r.token) r.encode) reply s.files
        files) :
    f.Keeps alive know i (.writeStream (File.temporaryPath f.path r.token) r.encode) reply
      { s with files } := by
  cases reply with
  | false =>
    obtain ⟨content?, rfl⟩ := heffect
    exact ⟨_, rfl, h.setTemporary hsigns.token content?⟩
  | true =>
    obtain rfl := heffect
    refine ⟨_, ⟨r, hsigns, rfl, rfl⟩, ?_⟩
    have hset := h.setTemporary hsigns.token (some r.encode)
    rw [← Function.update_idem { know i with written? := none }]
    refine hset.learn ?_ ?_
    . rw [Function.update_self]
    . intro hi
      have hvalid := hset.valid i hi
      rw [Function.update_self] at hvalid
      refine { hvalid with written := ?_ }
      rintro _ ⟨⟩
      exact ⟨hsigns, Files.set_same _ _ _⟩

theorem keeps_link (h : f.Coherent alive know s) (hi : alive i) {r : Record}
    (hwritten : (know i).written? = some r)
    {reply : World.Reply (.link (File.temporaryPath f.path r.token) f.path)} {files : Files}
    (heffect :
      World.Effect (.link (File.temporaryPath f.path r.token) f.path) reply s.files files) :
    f.Keeps alive know i (.link (File.temporaryPath f.path r.token) f.path) reply
      { s with files } := by
  match reply, heffect with
  | .error e, heffect =>
    obtain rfl := heffect
    exact ⟨know i, rfl, h.same⟩
  | .ok (), heffect =>
    obtain ⟨content, hcontent, hfree, rfl⟩ := heffect
    obtain ⟨hsigns, hfile⟩ := (h.valid i hi).written r hwritten
    obtain rfl : content = r.encode := Option.some.inj (hcontent.symm.trans hfile)
    have hlinked : f.Coherent alive know
        { s with files := s.files.set f.path (some r.encode) } := by
      refine h.change rfl ?_ ?_ ?_ ?_
      . intro j _ r' _
        exact Files.set_of_ne (File.temporaryPath_ne f.path r'.token) _ _
      . -- There was no lock file, so there was no lock to know of.
        intro j hj hknown
        exact absurd hfree ((h.valid j hj).files_ne_none hknown)
      . intro j _ _
        rfl
      . intro content hcontent
        obtain rfl : r.encode = content := by simpa using hcontent
        exact h.attributed_encode hsigns
    refine ⟨_, rfl, hlinked.learn rfl ?_⟩
    intro _
    have hvalid := hlinked.valid i hi
    refine { hvalid with lock := ?_ }
    intro r' hr'
    obtain rfl : r = r' := Option.some.inj (hwritten.symm.trans hr')
    exact ⟨hsigns, Files.set_same _ _ _⟩

/-- A lease that has the lock, or has confirmed that nobody has it, may remove it. -/
theorem keeps_removeLock (h : f.Coherent alive know s) (hi : alive i)
    (hentitled : (know i).lock? ≠ none ∨ (know i).confirmed = true)
    {reply : World.Reply (.remove f.path)} {files : Files}
    (heffect : World.Effect (.remove f.path) reply s.files files) :
    f.Keeps alive know i (.remove f.path) reply { s with files } := by
  have hserves : (f.identity i).Serves (.remove f.path) (know i) reply
      { know i with lock? := none, confirmed := false } :=
    (if_pos rfl).symm
  have hforget : f.Coherent alive
      (Function.update know i { know i with lock? := none, confirmed := false }) s :=
    h.learn rfl fun hi => { h.valid i hi with lock := nofun, confirmed := nofun }
  match reply, heffect with
  | .error e, heffect =>
    obtain rfl := heffect
    exact ⟨_, hserves, hforget⟩
  | .ok (), heffect =>
    obtain rfl := heffect
    refine ⟨_, hserves, hforget.change rfl ?_ ?_ ?_ ?_⟩
    . intro j _ r _
      exact Files.set_of_ne (File.temporaryPath_ne f.path r.token) _ _
    . -- Nobody else is entitled to remove the lock, so nobody else knows anything of it.
      intro j hj hknown
      exfalso
      by_cases hji : j = i
      . rw [hji, Function.update_self] at hknown
        simp at hknown
      . rw [Function.update_of_ne hji] at hknown
        exact hji (h.unique hj hi hknown hentitled)
    . intro j _ _
      rfl
    . intro content hcontent
      simp at hcontent

theorem keeps_removeTemporary (h : f.Coherent alive know s) {token : Text}
    (htoken : (know i).token? = some token)
    {reply : World.Reply (.remove (File.temporaryPath f.path token))} {files : Files}
    (heffect : World.Effect (.remove (File.temporaryPath f.path token)) reply s.files files) :
    f.Keeps alive know i (.remove (File.temporaryPath f.path token)) reply { s with files } := by
  have hserves : (f.identity i).Serves (.remove (File.temporaryPath f.path token)) (know i) reply
      { know i with written? := none } :=
    (if_neg (File.temporaryPath_ne f.path token)).symm
  match reply, heffect with
  | .error e, heffect =>
    obtain rfl := heffect
    exact ⟨_, hserves, h.learn rfl fun hi => (h.valid i hi).forgetWritten⟩
  | .ok (), heffect =>
    obtain rfl := heffect
    exact ⟨_, hserves, h.setTemporary htoken none⟩

theorem keeps_openGuard (h : f.Coherent alive know s)
    {reply : World.Reply (.openGuard (guardPath f.path))} {files : Files}
    (heffect : World.Effect (.openGuard (guardPath f.path)) reply s.files files) :
    f.Keeps alive know i (.openGuard (guardPath f.path)) reply { s with files } := by
  match reply, heffect with
  | .error e, heffect =>
    obtain rfl := heffect
    exact ⟨know i, rfl, h.same⟩
  | .ok (), heffect =>
    obtain rfl := heffect
    have hpath : ∀ content?, s.files.set (guardPath f.path) content? f.path = s.files f.path :=
      Files.set_of_ne (guardPath_ne f.path).symm s.files
    refine ⟨know i, rfl, Coherent.same (h.change rfl ?_ ?_ ?_ ?_)⟩
    . intro j _ r _
      exact Files.set_of_ne (guardPath_ne_temporaryPath f.path r.token).symm _ _
    . intro j _ _
      exact hpath _
    . intro j _ _
      rfl
    . intro content hcontent
      exact h.lock content ((hpath _).symm.trans hcontent)

theorem keeps_lockGuard (h : f.Coherent alive know s) (hfree : s.guard? (guardPath f.path) = none) :
    f.Keeps alive know i (.lockGuard (guardPath f.path)) (.ok ())
      { s with guard? := Function.update s.guard? (guardPath f.path) (some i) } := by
  have hlocked : f.Coherent alive know
      { s with guard? := Function.update s.guard? (guardPath f.path) (some i) } := by
    refine h.change rfl (fun _ _ _ _ => rfl) (fun _ _ _ => rfl) ?_ h.lock
    -- The guard was free, so nobody relies on it.
    intro j hj hguarded
    rw [(h.valid j hj).guarded hguarded] at hfree
    cases hfree
  refine ⟨_, rfl, hlocked.learn rfl ?_⟩
  intro hi
  refine { hlocked.valid i hi with guarded := ?_, confirmed := ?_ }
  . intro _
    exact Function.update_self _ _ _
  . intro hconfirmed
    exact ⟨rfl, ((hlocked.valid i hi).confirmed hconfirmed).2⟩

theorem keeps_closeGuard (h : f.Coherent alive know s)
    (reply : World.Reply (.closeGuard (guardPath f.path))) :
    f.Keeps alive know i (.closeGuard (guardPath f.path)) reply
      (if s.guard? (guardPath f.path) = some i then
        { s with guard? := Function.update s.guard? (guardPath f.path) none }
      else s) := by
  have hforget : f.Coherent alive
      (Function.update know i { know i with guarded := false, confirmed := false }) s :=
    h.learn rfl fun hi => { h.valid i hi with guarded := nofun, confirmed := nofun }
  refine ⟨_, rfl, ?_⟩
  split
  . next hguard =>
    refine hforget.change rfl (fun _ _ _ _ => rfl) (fun _ _ _ => rfl) ?_ hforget.lock
    intro j hj hguarded
    have hj' := (hforget.valid j hj).guarded hguarded
    obtain rfl : i = j := Option.some.inj (hguard.symm.trans hj')
    rw [Function.update_self] at hguarded
    cases hguarded
  . exact hforget

theorem keeps_isAlive (h : f.Coherent alive know s) (hi : alive i) {status : π → Status}
    (hstarted : ∀ j, alive j → (know j).token? ≠ none → status (f.process j) = .running) {pid : Int}
    {reply : World.Reply (.isAlive pid)}
    (hreply : reply = false → ∀ p, status p = .running → f.host p = f.hostOf i → f.pid p ≠ pid) :
    f.Keeps alive know i (.isAlive pid) reply s := by
  cases reply with
  | true => exact ⟨know i, rfl, h.same⟩
  | false =>
    refine ⟨_, rfl, h.learn rfl ?_⟩
    intro _
    refine { h.valid i hi with gone := ?_, confirmed := nofun }
    intro token htoken
    exact h.gone_of_seenToken? hi hstarted (hreply rfl) htoken

theorem keeps_read (h : f.Coherent alive know s) (hi : alive i)
    {reply : World.Reply (.read f.path)}
    (hreply : ∀ content?, reply = .ok content? → content? = s.files f.path) :
    f.Keeps alive know i (.read f.path) reply s := by
  match reply, hreply with
  | .error e, _ => exact ⟨know i, rfl, h.same⟩
  | .ok none, hreply =>
    refine ⟨know i, ⟨?_, rfl⟩, h.same⟩
    by_contra hlock
    obtain ⟨r, hr⟩ := Option.ne_none_iff_exists'.mp hlock
    have := ((h.valid i hi).lock r hr).2
    rw [← hreply _ rfl] at this
    cases this
  | .ok (some content), hreply =>
    have hcontent := (hreply _ rfl).symm
    refine ⟨_, ⟨?_, rfl⟩, ?_⟩
    . intro r hr
      have := ((h.valid i hi).lock r hr).2
      rw [hcontent] at this
      exact Option.some.inj this
    . refine h.learn rfl ?_
      intro _
      have hvalid := h.valid i hi
      refine { hvalid with seen := ?_, confirmed := ?_ }
      . rintro _ ⟨⟩
        exact h.lock content hcontent
      . intro hconfirmed
        simp only [Bool.and_eq_true, beq_iff_eq] at hconfirmed
        exact ⟨hconfirmed.1, _, content, hconfirmed.2, hcontent, rfl⟩

/-- A request that the protocol admits keeps true what all leases know. -/
theorem keeps_of_answers (h : f.Coherent alive know s) (hi : alive i) {status : π → Status}
    (hstarted : ∀ j, alive j → (know j).token? ≠ none → status (f.process j) = .running)
    {r : World.Request} (hadmits : (f.identity i).Admits (know i) r) {reply : World.Reply r}
    (hanswers : f.Answers status i r s reply s') : f.Keeps alive know i r reply s' := by
  cases r with
  | read path =>
    obtain rfl : path = f.path := hadmits
    obtain ⟨files, ⟨hreply, rfl⟩, rfl⟩ := hanswers
    exact keeps_read h hi hreply
  | openStream temporary =>
    obtain ⟨token, htoken, rfl⟩ := hadmits
    obtain ⟨files, heffect, rfl⟩ := hanswers
    exact keeps_openStream h htoken heffect
  | writeStream temporary content =>
    obtain ⟨r, hsigns, rfl, rfl⟩ := hadmits
    obtain ⟨files, heffect, rfl⟩ := hanswers
    exact keeps_writeStream h hsigns heffect
  | link temporary path =>
    obtain ⟨r, hwritten, rfl, rfl⟩ := hadmits
    obtain ⟨files, heffect, rfl⟩ := hanswers
    exact keeps_link h hi hwritten heffect
  | remove path =>
    obtain ⟨files, heffect, rfl⟩ := hanswers
    cases hadmits with
    | inl hown =>
      obtain ⟨token, htoken, rfl⟩ := hown
      exact keeps_removeTemporary h htoken heffect
    | inr hlock =>
      obtain ⟨rfl, hentitled⟩ := hlock
      exact keeps_removeLock h hi hentitled heffect
  | openGuard guard =>
    obtain rfl : guard = guardPath f.path := hadmits
    obtain ⟨files, heffect, rfl⟩ := hanswers
    exact keeps_openGuard h heffect
  | lockGuard guard =>
    obtain rfl : guard = guardPath f.path := hadmits
    match reply, hanswers with
    | .ok (), hanswers =>
      obtain ⟨hfree, rfl⟩ := hanswers
      exact keeps_lockGuard h hfree
    | .error e, hanswers =>
      obtain rfl := hanswers
      exact ⟨know i, rfl, h.same⟩
  | closeGuard guard =>
    obtain rfl : guard = guardPath f.path := hadmits
    obtain rfl := hanswers
    exact keeps_closeGuard h reply
  | hostName =>
    obtain ⟨rfl, rfl⟩ := hanswers
    exact ⟨know i, ⟨⟨_, rfl, rfl⟩, rfl⟩, h.same⟩
  | processId =>
    obtain ⟨rfl, rfl⟩ := hanswers
    exact ⟨know i, ⟨rfl, rfl⟩, h.same⟩
  | isAlive pid =>
    obtain ⟨hreply, rfl⟩ := hanswers
    exact keeps_isAlive h hi hstarted hreply
  | freshName =>
    obtain ⟨htoken, rfl⟩ := hanswers
    exact ⟨_, rfl, h.draw htoken⟩
  | now | ticks | wait | interruptions | log =>
    obtain ⟨files, rfl, rfl⟩ := hanswers
    exact ⟨know i, rfl, h.same⟩
  | _ => exact False.elim hadmits

end Update

end SchemaMigration.Lease.Fleet

import Mathlib.Logic.Function.Basic
import Mathlib.Logic.Relation
import SchemaMigration.Proofs.Ledger.Serial

/-!
This module contains ledgers that share one ledger file: any number of them, each with a state of
its own that may be out of date. One step of the whole is one request of one ledger, and the steps
of different ledgers come in any order. Whoever has the lease keeps it until giving it up.
-/

namespace SchemaMigration.Ledger

open Program (Ensures)

/-- A ledger, or a ledger with the rest of the operation that it is in. -/
inductive Actor where
  | idle (l : Ledger)
  | busy (l : Ledger) (o : Operation) (program : Program Access Failure Ledger)

structure Shared (ι : Type) where
  content? : Option Text
  holder? : Option ι
  tenures : List (Tenure ι)

structure Scene (ι : Type) where
  shared : Shared ι
  actor : ι → Actor

section System

variable {ι : Type} [DecidableEq ι]

def note (i : ι) (content : Text) : List (Tenure ι) → List (Tenure ι)
  | [] => []
  | t :: ts =>
    if t.owner = i then { t with written? := some content } :: ts else t :: note i content ts

namespace Shared

def grant (s : Shared ι) (i : ι) (o : Operation) : Shared ι :=
  { s with holder? := some i, tenures := ⟨i, o, none⟩ :: s.tenures }

def write (s : Shared ι) (i : ι) (content : Text) : Shared ι :=
  { s with content? := some content, tenures := note i content s.tenures }

/--
The replies that a ledger may get, and what becomes of what is shared. The lease is granted to one
at a time. Any request may fail, and a replacement that fails may have taken place.
-/
def Answers (i : ι) (o : Operation) : (r : Request) → Shared ι → Reply r → Shared ι → Prop
  | .acquire, s, .ok _, s' => s.holder? = none ∧ s' = s.grant i o
  | .release, s, _, s' => s' = if s.holder? = some i then { s with holder? := none } else s
  | .read, s, reply, s' => (∀ found?, reply = .ok found? → found? = s.content?) ∧ s' = s
  | .replace content, s, .ok _, s' => s' = s.write i content
  | .replace content, s, .error _, s' => s' = s ∨ s' = s.write i content
  | _, s, _, s' => s' = s

inductive Moves (i : ι) (s : Shared ι) : Shared ι → Prop
  | stay : Moves i s s
  | grant (o : Operation) (hfree : s.holder? = none) : Moves i s (s.grant i o)
  | write {o : Operation} {written? : Option Text} {older : List (Tenure ι)} (content : Text)
    (hheld : s.holder? = some i) (htenures : s.tenures = ⟨i, o, written?⟩ :: older) :
    Moves i s (s.write i content)
  | release (hheld : s.holder? = some i) : Moves i s { s with holder? := none }

end Shared

namespace Scene

inductive Step : Scene ι → Scene ι → Prop
  | start {s : Scene ι} {i : ι} {l : Ledger} (o : Operation) (hactor : s.actor i = .idle l) :
    Step s { s with actor := Function.update s.actor i (.busy l o (o.program l)) }
  | request {s : Scene ι} {i : ι} {l : Ledger} {o : Operation} {r : Request}
    {next : Reply r → Program Access Failure Ledger} {reply : Reply r} {shared : Shared ι}
    (hactor : s.actor i = .busy l o (.ask r next))
    (hanswers : Shared.Answers i o r s.shared reply shared) :
    Step s ⟨shared, Function.update s.actor i (.busy l o (next reply))⟩
  | finish {s : Scene ι} {i : ι} {l : Ledger} {o : Operation} {outcome : Except Failure Ledger}
    (hactor : s.actor i = .busy l o (.ofExcept outcome)) :
    Step s { s with actor := Function.update s.actor i (.idle (l.settle outcome)) }

inductive Reachable (path : Path) (initial? : Option Text) : Scene ι → Prop
  | initial (state : ι → State) :
    Reachable path initial? ⟨⟨initial?, none, []⟩, fun i => .idle ⟨path, state i⟩⟩
  | step {s s' : Scene ι} (h : Reachable path initial? s) (hstep : Step s s') :
    Reachable path initial? s'

end Scene

end System

variable {ι : Type} {path : Path} {initial? : Option Text} {shared shared' : Shared ι} {i j : ι}
  {o : Operation} {l l' : Ledger}

def Placed (path : Path) (initial? : Option Text) (shared : Shared ι) (i : ι) (o : Operation) :
    Session → Prop
  | .outside => shared.holder? ≠ some i
  | .inside v => shared.holder? = some i ∧ shared.content? = v.content? ∧
    ∃ older, shared.tenures = ⟨i, o, v.written?⟩ :: older ∧ Leaves path initial? older v.start?
  | .left v => shared.holder? ≠ some i ∧
    ∃ newer older, shared.tenures = newer ++ ⟨i, o, v.written?⟩ :: older ∧
      (∀ t ∈ newer, t.owner ≠ i) ∧ Leaves path initial? older v.start?

theorem Session.Ends.placed {faults : Failure → Prop} {outcome : Except Failure Ledger}
    {session : Session} (h : Session.Ends path o faults l outcome session)
    (hplaced : Placed path initial? shared i o session) :
    (l.settle outcome).path = l.path ∧ shared.holder? ≠ some i := by
  cases h with
  | refused => exact ⟨rfl, hplaced⟩
  | skipped => exact ⟨rfl, hplaced⟩
  | failed => exact ⟨rfl, hplaced.1⟩
  | probed => exact ⟨rfl, hplaced.1⟩
  | read => exact ⟨rfl, hplaced.1⟩
  | wrote => exact ⟨rfl, hplaced.1⟩

/-- A ledger is without the lease, or the rest of its operation fits the session it is in. -/
def Actor.Behaves (path : Path) (initial? : Option Text) (shared : Shared ι) (i : ι) : Actor → Prop
  | .idle l => l.path = path ∧ shared.holder? ≠ some i
  | .busy l o p => l.path = path ∧ ∃ session, Placed path initial? shared i o session ∧
    Ensures (Session.server path o fun _ => True) p session (Session.Ends path o (fun _ => True) l)

namespace Scene

structure Invariant (path : Path) (initial? : Option Text) (s : Scene ι) : Prop where
  leaves : Leaves path initial? s.shared.tenures s.shared.content?
  behaves : ∀ i, (s.actor i).Behaves path initial? s.shared i

variable {s : Scene ι}

theorem Invariant.holder (h : Invariant path initial? s) {r : Request}
    {next : Reply r → Program Access Failure Ledger} (hactor : s.actor i = .busy l o (.ask r next))
    (hr : r = .read ∨ ∃ content, r = .replace content) : s.shared.holder? = some i := by
  have hbehaves := h.behaves i
  rw [hactor] at hbehaves
  obtain ⟨_, session, hplaced, hadmits, _⟩ := hbehaves
  obtain rfl | ⟨content, rfl⟩ := hr
  . obtain ⟨v, rfl⟩ := hadmits
    exact hplaced.1
  . obtain ⟨start?, rfl, _⟩ := hadmits
    exact hplaced.1

end Scene

/--
The state is the one that the ledger file has behind some tenures. In the newest of them, which `i`
has for `o`, the state is written, or it is read and nothing is to be written.
-/
inductive Shows (path : Path) (initial? : Option Text) (i : ι) (o : Operation) :
    List (Tenure ι) → State → Prop
  | wrote {start s : State} {older : List (Tenure ι)}
    (hstart : decodeFile path initial? = .ok start)
    (hserial : Serial start (⟨i, o, some s.encode⟩ :: older) s) :
    Shows path initial? i o (⟨i, o, some s.encode⟩ :: older) s
  | read {start s : State} {older : List (Tenure ι)}
    (hstart : decodeFile path initial? = .ok start) (hserial : Serial start older s)
    (hreads : o.Reads s) : Shows path initial? i o (⟨i, o, none⟩ :: older) s

theorem Shows.newest {tenures : List (Tenure ι)} {state : State}
    (h : Shows path initial? i o tenures state) : tenures.head?.map (·.owner) = some i := by
  cases h with
  | wrote => rfl
  | read => rfl

theorem Session.Ends.shows {faults : Failure → Prop} {session : Session}
    (h : Session.Ends path o faults l (.ok l') session)
    (hplaced : Placed path initial? shared i o session) :
    (o = .probe ∨ o = .mutate (.remove [])) ∧ l' = l ∨
      ∃ newer ended, shared.tenures = newer ++ ended ∧ (∀ t ∈ newer, t.owner ≠ i) ∧
        Shows path initial? i o ended l'.state := by
  cases h with
  | skipped ho => exact .inl ⟨.inr ho, rfl⟩
  | probed ho => exact .inl ⟨.inl ho, rfl⟩
  | read hreads hdecode =>
    obtain ⟨_, newer, older, htenures, hnewer, holder⟩ := hplaced
    obtain ⟨start, hstart, hserial⟩ := holder.serial_of_decodeFile hdecode
    exact .inr ⟨newer, _, htenures, hnewer, .read hstart hserial hreads⟩
  | wrote ho hdecode hwrites =>
    subst ho
    obtain ⟨_, newer, older, htenures, hnewer, holder⟩ := hplaced
    obtain ⟨start, hstart, hserial⟩ := holder.serial_of_decodeFile hdecode
    have hserial := Serial.wrote (t := ⟨i, _, _⟩) hserial (.mutate hwrites) rfl
    exact .inr ⟨newer, _, htenures, hnewer, .wrote hstart hserial⟩

namespace Scene

variable {s : Scene ι}

theorem Invariant.ended (h : Invariant path initial? s) {outcome : Except Failure Ledger}
    (hactor : s.actor i = .busy l o (.ofExcept outcome)) :
    l.path = path ∧ ∃ session, Placed path initial? s.shared i o session ∧
      Session.Ends path o (fun _ => True) l outcome session := by
  have hbehaves := h.behaves i
  rw [hactor] at hbehaves
  obtain ⟨hpath, session, hplaced, hensures⟩ := hbehaves
  exact ⟨hpath, session, hplaced, (Program.ensures_ofExcept ..).mp hensures⟩

theorem Invariant.serial (h : Invariant path initial? s) :
    (s.shared.content? = initial? ∧ ∀ t ∈ s.shared.tenures, t.written? = none) ∨
      ∃ start state, decodeFile path initial? = .ok start ∧
        Serial start s.shared.tenures state ∧ state.files.Nodup ∧
        s.shared.content? = some state.encode := by
  cases h.leaves.serial with
  | inl hnothing => exact .inl hnothing
  | inr hwritten =>
    obtain ⟨start, state, hstart, hserial, hcontent⟩ := hwritten
    exact .inr ⟨start, state, hstart, hserial, hserial.nodup (nodup_of_decodeFile hstart), hcontent⟩

theorem Invariant.newest (h : Invariant path initial? s) (hheld : s.shared.holder? = some i) :
    s.shared.tenures.head?.map (·.owner) = some i := by
  have hbehaves := h.behaves i
  cases hactor : s.actor i with
  | idle l =>
    rw [hactor] at hbehaves
    exact absurd hheld hbehaves.2
  | busy l o p =>
    rw [hactor] at hbehaves
    obtain ⟨_, session, hplaced, _⟩ := hbehaves
    cases session with
    | outside => exact absurd hheld hplaced
    | left v => exact absurd hheld hplaced.1
    | inside v =>
      obtain ⟨_, _, older, htenures, _⟩ := hplaced
      rw [htenures]
      rfl

end Scene

def Shared.Past (s : Shared ι) (ts : List (Tenure ι)) : Prop :=
  List.IsSuffix ts s.tenures ∧ (s.holder? ≠ none → ts.length < s.tenures.length)

theorem Scene.Invariant.past {s : Scene ι} (h : Invariant path initial? s)
    {newer ended : List (Tenure ι)} (htenures : s.shared.tenures = newer ++ ended)
    (hended : ended.head?.map (·.owner) = some i) (hout : s.shared.holder? ≠ some i) :
    s.shared.Past ended := by
  refine ⟨⟨newer, htenures.symm⟩, ?_⟩
  intro hheld
  obtain ⟨j, hj⟩ := Option.ne_none_iff_exists'.mp hheld
  cases newer with
  | nil =>
    -- Then `i` would have the newest tenure, which is that of the holder.
    have hnewest := h.newest hj
    rw [htenures, List.nil_append, hended] at hnewest
    exact absurd (hj.trans hnewest.symm) hout
  | cons t newer =>
    rw [htenures]
    simp only [List.cons_append, List.length_cons, List.length_append]
    omega

section Steps

variable [DecidableEq ι]

theorem Shared.tenures_write {written? : Option Text} {older : List (Tenure ι)}
    (h : shared.tenures = ⟨i, o, written?⟩ :: older) (content : Text) :
    (shared.write i content).tenures = ⟨i, o, some content⟩ :: older := by
  unfold write note
  rw [h]
  exact if_pos rfl

theorem Shared.Moves.outside (h : shared.Moves i shared') (hne : j ≠ i)
    (hout : shared.holder? ≠ some j) : shared'.holder? ≠ some j := by
  cases h with
  | stay => exact hout
  | grant => exact fun heq => hne (Option.some.inj heq).symm
  | write => exact hout
  | release => exact nofun

/-- What one ledger does leaves the others where they are in their sessions. -/
theorem Placed.of_moves {session : Session} (h : Placed path initial? shared j o session)
    (hmoves : shared.Moves i shared') (hne : j ≠ i) : Placed path initial? shared' j o session := by
  cases session with
  | outside => exact hmoves.outside hne h
  | inside v =>
    have hother : shared.holder? ≠ some i := by
      rw [h.1]
      exact fun heq => hne (Option.some.inj heq)
    cases hmoves with
    | stay => exact h
    | grant _ hfree => exact absurd (h.1.symm.trans hfree) nofun
    | write _ hheld => exact absurd hheld hother
    | release hheld => exact absurd hheld hother
  | left v =>
    obtain ⟨hout, newer, older, htenures, hnewer, holder⟩ := h
    refine ⟨hmoves.outside hne hout, ?_⟩
    cases hmoves with
    | stay => exact ⟨newer, older, htenures, hnewer, holder⟩
    | release => exact ⟨newer, older, htenures, hnewer, holder⟩
    | grant o' =>
      refine ⟨⟨i, o', none⟩ :: newer, older, congrArg _ htenures, ?_, holder⟩
      exact List.forall_mem_cons.mpr ⟨hne.symm, hnewer⟩
    | @write o' _ before content _ hbefore =>
      -- The tenure that is under way is newer than the one of `j`.
      rw [hbefore] at htenures
      cases newer with
      | nil =>
        cases htenures
        exact absurd rfl hne
      | cons t newer =>
        cases htenures
        refine ⟨⟨i, o', some content⟩ :: newer, older, ?_, ?_, holder⟩
        . exact Shared.tenures_write hbefore content
        . exact List.forall_mem_cons.mpr (List.forall_mem_cons.mp hnewer)

theorem placed_write {start? : Option Text} {content : Text}
    (h : Placed path initial? shared i o (.inside ⟨start?, none⟩))
    (hturn : Turn path o start? (some content)) :
    Placed path initial? (shared.write i content) i o (.inside ⟨start?, some content⟩) ∧
      Leaves path initial? (shared.write i content).tenures (some content) ∧
      shared.Moves i (shared.write i content) := by
  obtain ⟨hheld, _, older, htenures, holder⟩ := h
  have hnote := Shared.tenures_write htenures content
  refine ⟨⟨hheld, rfl, older, hnote, holder⟩, ?_, .write content hheld htenures⟩
  rw [hnote]
  exact .cons (t := ⟨i, o, some content⟩) holder hturn

/-- The reply to a request of an operation is one that its session allows for. -/
theorem serves_of_answers {session : Session} {r : Request} {reply : Reply r}
    (hleaves : Leaves path initial? shared.tenures shared.content?)
    (hplaced : Placed path initial? shared i o session)
    (hadmits : (Session.server path o fun _ => True).Admits r session)
    (hanswers : shared.Answers i o r reply shared') :
    ∃ session', (Session.server path o fun _ => True).Serves r session reply session' ∧
      Placed path initial? shared' i o session' ∧
      Leaves path initial? shared'.tenures shared'.content? ∧ shared.Moves i shared' := by
  cases r with
  | acquire =>
    cases hadmits
    cases reply with
    | error e =>
      cases hanswers
      exact ⟨.outside, rfl, hplaced, hleaves, .stay⟩
    | ok _ =>
      obtain ⟨hfree, rfl⟩ := hanswers
      refine ⟨.inside ⟨shared.content?, none⟩, ⟨_, rfl⟩, ?_, ?_, .grant o hfree⟩
      . exact ⟨rfl, rfl, shared.tenures, rfl, hleaves⟩
      . exact .cons (t := ⟨i, o, none⟩) hleaves .nothing
  | release =>
    obtain ⟨v, rfl⟩ := hadmits
    obtain ⟨hheld, _, older, htenures, holder⟩ := hplaced
    rw [Shared.Answers, if_pos hheld] at hanswers
    subst hanswers
    refine ⟨.left v, rfl, ?_, hleaves, .release hheld⟩
    exact ⟨nofun, [], older, htenures, nofun, holder⟩
  | read =>
    obtain ⟨v, rfl⟩ := hadmits
    obtain ⟨hfound, rfl⟩ := hanswers
    refine ⟨.inside v, ⟨?_, rfl⟩, hplaced, hleaves, .stay⟩
    intro found? hreply
    exact (hfound found? hreply).trans hplaced.2.1
  | replace content =>
    obtain ⟨start?, rfl, hturn⟩ := hadmits
    have hwritten := placed_write hplaced hturn
    cases reply with
    | ok _ =>
      cases hanswers
      exact ⟨_, rfl, hwritten⟩
    | error e =>
      cases hanswers with
      | inl hsame =>
        subst hsame
        exact ⟨_, .inl rfl, hplaced, hleaves, .stay⟩
      | inr hreplaced =>
        subst hreplaced
        exact ⟨_, .inr ⟨trivial, rfl⟩, hwritten⟩
  | keep _ | now | log _ =>
    cases hanswers
    exact ⟨session, rfl, hplaced, hleaves, .stay⟩

theorem Shared.Past.of_moves {ts : List (Tenure ι)} (h : shared.Past ts)
    (hmoves : shared.Moves i shared') : shared'.Past ts := by
  obtain ⟨hsuffix, hover⟩ := h
  cases hmoves with
  | stay => exact ⟨hsuffix, hover⟩
  | release => exact ⟨hsuffix, fun hheld => absurd rfl hheld⟩
  | grant o =>
    refine ⟨hsuffix.trans (List.suffix_cons ..), ?_⟩
    intro _
    exact Nat.lt_succ_of_le hsuffix.length_le
  | @write o _ older content hheld htenures =>
    have hshorter := hover (by rw [hheld]; exact Option.some_ne_none i)
    rw [htenures] at hsuffix hshorter
    rw [Shared.Past, Shared.tenures_write htenures content]
    -- Only the newest tenure is written in, and it is not among those that are over.
    cases List.suffix_cons_iff.mp hsuffix with
    | inl heq =>
      rw [heq] at hshorter
      exact absurd hshorter (Nat.lt_irrefl _)
    | inr htail => exact ⟨htail.trans (List.suffix_cons ..), fun _ => hshorter⟩

theorem Actor.Behaves.of_moves {a : Actor} (h : a.Behaves path initial? shared j)
    (hmoves : shared.Moves i shared') (hne : j ≠ i) : a.Behaves path initial? shared' j := by
  cases a with
  | idle l => exact ⟨h.1, hmoves.outside hne h.2⟩
  | busy l o p =>
    obtain ⟨hpath, session, hplaced, hensures⟩ := h
    exact ⟨hpath, session, hplaced.of_moves hmoves hne, hensures⟩

namespace Scene

variable {s s' : Scene ι}

theorem Invariant.update (h : Invariant path initial? s) {a : Actor}
    (hleaves : Leaves path initial? shared.tenures shared.content?)
    (hmoves : s.shared.Moves i shared) (ha : a.Behaves path initial? shared i) :
    Invariant path initial? ⟨shared, Function.update s.actor i a⟩ where
  leaves := hleaves
  behaves j := by
    by_cases hji : j = i
    . subst hji
      dsimp only
      rwa [Function.update_self]
    . dsimp only
      rw [Function.update_of_ne hji]
      exact (h.behaves j).of_moves hmoves hji

theorem Invariant.step (h : Invariant path initial? s) (hstep : Step s s') :
    Invariant path initial? s' ∧ ∃ i, s.shared.Moves i s'.shared := by
  cases hstep with
  | @start i l o hactor =>
    have hbehaves := h.behaves i
    rw [hactor] at hbehaves
    obtain ⟨rfl, hout⟩ := hbehaves
    refine ⟨?_, i, .stay⟩
    exact h.update h.leaves .stay ⟨rfl, .outside, hout, Session.program_ensures o l⟩
  | @request i l o r next reply shared hactor hanswers =>
    have hbehaves := h.behaves i
    rw [hactor] at hbehaves
    obtain ⟨hpath, session, hplaced, hadmits, hnext⟩ := hbehaves
    obtain ⟨session', hserves, hplaced, hleaves, hmoves⟩ :=
      serves_of_answers h.leaves hplaced hadmits hanswers
    refine ⟨?_, i, hmoves⟩
    exact h.update hleaves hmoves ⟨hpath, session', hplaced, hnext reply session' hserves⟩
  | @finish i l o outcome hactor =>
    obtain ⟨rfl, session, hplaced, hends⟩ := h.ended hactor
    refine ⟨?_, i, .stay⟩
    exact h.update h.leaves .stay (hends.placed hplaced)

theorem Reachable.invariant (h : Reachable path initial? s) : Invariant path initial? s := by
  induction h with
  | initial state => exact ⟨.nil, fun _ => ⟨rfl, nofun⟩⟩
  | step _ hstep ih => exact (ih.step hstep).1

theorem Invariant.past_of_steps {ts : List (Tenure ι)} (h : Invariant path initial? s)
    (hpast : s.shared.Past ts) (hsteps : Relation.ReflTransGen Step s s') :
    Invariant path initial? s' ∧ s'.shared.Past ts := by
  induction hsteps with
  | refl => exact ⟨h, hpast⟩
  | tail _ hstep ih =>
    obtain ⟨hinvariant, hpast⟩ := ih
    obtain ⟨hinvariant, i, hmoves⟩ := hinvariant.step hstep
    exact ⟨hinvariant, hpast.of_moves hmoves⟩

theorem Invariant.shows (h : Invariant path initial? s)
    (hactor : s.actor i = .busy l o (.done l')) :
    (o = .probe ∨ o = .mutate (.remove [])) ∧ l' = l ∨
      ∃ newer ended, s.shared.tenures = newer ++ ended ∧ (∀ t ∈ newer, t.owner ≠ i) ∧
        Shows path initial? i o ended l'.state ∧
        ∀ s', Relation.ReflTransGen Step s s' → List.IsSuffix ended s'.shared.tenures := by
  have hended : s.actor i = .busy l o (.ofExcept (.ok l')) := hactor
  obtain ⟨_, session, hplaced, hends⟩ := h.ended hended
  cases hends.shows hplaced with
  | inl hkept => exact .inl hkept
  | inr hshown =>
    obtain ⟨newer, ended, htenures, hnewer, hshows⟩ := hshown
    have hpast := h.past htenures hshows.newest (hends.placed hplaced).2
    refine .inr ⟨newer, ended, htenures, hnewer, hshows, ?_⟩
    intro s' hsteps
    exact (h.past_of_steps hpast hsteps).2.1

end Scene

def Shared.oblige (i : ι) (o : Operation) : (r : Request) → Shared ι → Reply r × Shared ι
  | .acquire, s => if s.holder? = none then (.ok (), s.grant i o) else (.error .emptyBatch, s)
  | .release, s => ((), if s.holder? = some i then { s with holder? := none } else s)
  | .read, s => (.ok s.content?, s)
  | .replace content, s => (.ok (), s.write i content)
  | .now, s => (⟨0⟩, s)
  | .keep _, s | .log _, s => ((), s)

theorem Shared.answers_oblige (i : ι) (o : Operation) (r : Request) (s : Shared ι) :
    s.Answers i o r (oblige i o r s).1 (oblige i o r s).2 := by
  cases r with
  | acquire =>
    simp only [oblige]
    split
    . next hfree => exact ⟨hfree, rfl⟩
    . rfl
  | read => exact ⟨fun _ hfound => (Except.ok.inj hfound).symm, rfl⟩
  | _ => rfl

def Shared.perform (s : Shared ι) (i : ι) (l : Ledger) (o : Operation) :
    Except Failure Ledger × Shared ι :=
  (o.program l).run (oblige i o) s

namespace Scene

variable {s : Scene ι}

/-- An operation can run to its end while all others rest. -/
theorem Reachable.run {p : Program Access Failure Ledger} (h : Reachable path initial? s)
    (hactor : s.actor i = .busy l o p) :
    Reachable path initial? ⟨(p.run (Shared.oblige i o) s.shared).2,
      Function.update s.actor i
        (.busy l o (.ofExcept (p.run (Shared.oblige i o) s.shared).1))⟩ := by
  induction p generalizing s with
  | done a =>
    change Reachable _ _ ⟨s.shared, Function.update s.actor i (.busy l o (.done a))⟩
    rwa [← hactor, Function.update_eq_self]
  | fail e =>
    change Reachable _ _ ⟨s.shared, Function.update s.actor i (.busy l o (.fail e))⟩
    rwa [← hactor, Function.update_eq_self]
  | ask r next ih =>
    have hnext := ih _ (h.step (.request hactor (s.shared.answers_oblige i o r)))
      (Function.update_self ..)
    rwa [Function.update_idem] at hnext

theorem Reachable.perform (h : Reachable path initial? s) (hactor : s.actor i = .idle l)
    (o : Operation) :
    Reachable path initial? ⟨(s.shared.perform i l o).2,
      Function.update s.actor i (.busy l o (.ofExcept (s.shared.perform i l o).1))⟩ := by
  have hrun := (h.step (.start o hactor)).run (Function.update_self ..)
  rwa [Function.update_idem] at hrun

/--
Only who has the lease reads or writes the ledger file. The file holds what the operations that
wrote make of its first content, one after another in the order of their tenures, and no name is
recorded twice. Behind an operation that succeeds, a ledger has the state that was written or read,
and its tenure stays in the history for good. Only a probe, or a removal of nothing, leaves the
ledger the state from before.
-/
theorem serial_of_reachable (h : Reachable path initial? s) :
    (∀ i l o (r : Request) (next : Reply r → Program Access Failure Ledger),
      s.actor i = .busy l o (.ask r next) → (r = .read ∨ ∃ content, r = .replace content) →
        s.shared.holder? = some i) ∧
    ((s.shared.content? = initial? ∧ ∀ t ∈ s.shared.tenures, t.written? = none) ∨
      ∃ start state, decodeFile path initial? = .ok start ∧
        Serial start s.shared.tenures state ∧ state.files.Nodup ∧
        s.shared.content? = some state.encode) ∧
    ∀ i l o l', s.actor i = .busy l o (.done l') →
      (o = .probe ∨ o = .mutate (.remove [])) ∧ l' = l ∨
        ∃ newer ended, s.shared.tenures = newer ++ ended ∧ (∀ t ∈ newer, t.owner ≠ i) ∧
          Shows path initial? i o ended l'.state ∧
          ∀ s', Relation.ReflTransGen Step s s' → List.IsSuffix ended s'.shared.tenures := by
  refine ⟨?_, h.invariant.serial, ?_⟩
  . intro i l o r next hactor hr
    exact h.invariant.holder hactor hr
  . intro i l o l' hactor
    exact h.invariant.shows hactor

end Scene

end Steps

/-- Two ledgers that have not been read yet do an operation each, the ledger `true` first. -/
def successive (path : Path) (first second : Operation) : Except Failure Ledger × Shared Bool :=
  (Shared.perform ⟨none, none, []⟩ true (.new path) first).2.perform false (.new path) second

theorem exists_reachable_successive {path : Path} {first second : Operation} {l : Ledger}
    (h : (successive path first second).1.toOption = some l) :
    ∃ s : Scene Bool, s.Reachable path none ∧ s.actor false = .busy (.new path) second (.done l) ∧
      s.shared = (successive path first second).2 := by
  have hinitial : Scene.Reachable path none
      ⟨⟨none, none, []⟩, fun _ : Bool => .idle (.new path)⟩ := .initial fun _ => .empty
  have hfirst := hinitial.perform (i := true) rfl first
  have hsecond := hfirst.perform (i := false) rfl second
  refine ⟨_, hsecond, ?_, rfl⟩
  dsimp only
  rw [Function.update_self]
  change Actor.busy _ second (.ofExcept (successive path first second).1) = _
  generalize (successive path first second).1 = outcome at h
  cases outcome with
  | error e => cases h
  | ok l' =>
    cases h
    rfl

/-- A ledger that is out of date records on top of what the other one has recorded. -/
theorem serial_of_successive_records :
    let path := ascii "ledger.json"
    let second : Operation := .mutate (.record [⟨ascii "2.sigl", ascii "y"⟩])
    ∃ (s : Scene Bool) (l : Ledger), s.Reachable path none ∧
      s.actor false = .busy (.new path) second (.done l) ∧
      l.state.files = [ascii "1.sigl", ascii "2.sigl"] ∧
      ∃ ended, Shows path none false second ended l.state ∧
        ∀ s', Relation.ReflTransGen Scene.Step s s' →
          List.IsSuffix ended s'.shared.tenures := by
  intro path second
  let first : Operation := .mutate (.record [⟨ascii "1.sigl", ascii "x"⟩])
  have hrun : (successive path first second).1.toOption.map (·.state.files) =
      some [ascii "1.sigl", ascii "2.sigl"] := by decide +kernel
  obtain ⟨l, hl, hfiles⟩ := Option.map_eq_some_iff.mp hrun
  obtain ⟨s, hreachable, hactor, _⟩ := exists_reachable_successive hl
  refine ⟨s, l, hreachable, hactor, hfiles, ?_⟩
  obtain ⟨_, _, hshows⟩ := Scene.serial_of_reachable hreachable
  cases hshows false _ _ l hactor with
  | inl hother => exact absurd hother.1 (by decide)
  | inr hshown =>
    obtain ⟨_, ended, _, _, hshows, hlasts⟩ := hshown
    exact ⟨ended, hshows, hlasts⟩

/-- A probe that succeeds leaves a ledger out of date, although it reads and writes the file. -/
theorem probe_leaves_state_out_of_date :
    ∃ (path : Path) (s : Scene Bool) (l : Ledger), s.Reachable path none ∧
      s.actor false = .busy (.new path) .probe (.done l) ∧
      s.shared.tenures.head? = some ⟨false, .probe, s.shared.content?⟩ ∧
      recorded s.shared.content? ≠ l.state.files := by
  let path := ascii "ledger.json"
  let first : Operation := .mutate (.record [⟨ascii "1.sigl", ascii "x"⟩])
  have hrun : (successive path first .probe).1.toOption = some (.new path) := by decide +kernel
  obtain ⟨s, hreachable, hactor, hshared⟩ := exists_reachable_successive hrun
  refine ⟨path, s, .new path, hreachable, hactor, ?_⟩
  rw [hshared]
  decide +kernel

end SchemaMigration.Ledger

import SchemaMigration.World

/-!
This module contains the logic of programs: what holds at the end of a program, whatever replies its
requests get.
-/

namespace SchemaMigration

/--
A system that serves requests. In a state it admits some requests, and it gives one of several
replies.
-/
structure Server (σ : Interface) (S : Type) where
  Admits : σ.Request → S → Prop
  Serves : (r : σ.Request) → S → σ.Reply r → S → Prop

namespace Program

variable {σ : Interface} {ε α β S : Type} {server : Server σ S}

/-- A program makes only admitted requests, and its outcome and last state satisfy `Q`. -/
def Ensures (server : Server σ S) : Program σ ε α → S → (Except ε α → S → Prop) → Prop
  | done a, s, Q => Q (.ok a) s
  | fail e, s, Q => Q (.error e) s
  | ask r next, s, Q =>
    server.Admits r s ∧ ∀ reply s', server.Serves r s reply s' → Ensures server (next reply) s' Q

@[simp]
theorem ensures_pure (a : α) (s : S) (Q : Except ε α → S → Prop) :
    Ensures server (pure a) s Q ↔ Q (.ok a) s := Iff.rfl

@[simp]
theorem ensures_throw (e : ε) (s : S) (Q : Except ε α → S → Prop) :
    Ensures server (throw e : Program σ ε α) s Q ↔ Q (.error e) s := Iff.rfl

theorem Ensures.mono {p : Program σ ε α} {s : S} {P Q : Except ε α → S → Prop}
    (h : Ensures server p s P) (himp : ∀ outcome s, P outcome s → Q outcome s) :
    Ensures server p s Q := by
  induction p generalizing s with
  | done a => exact himp _ _ h
  | fail e => exact himp _ _ h
  | ask r next ih =>
    refine ⟨h.1, fun reply s' hserves => ?_⟩
    exact ih reply (h.2 reply s' hserves)

def Then (P : α → S → Prop) (Q : Except ε β → S → Prop) : Except ε α → S → Prop
  | .ok a, s => P a s
  | .error e, s => Q (.error e) s

theorem ensures_ask_congr {r : σ.Request} {s : S} {next : σ.Reply r → Program σ ε α}
    {next' : σ.Reply r → Program σ ε β} {P : Except ε α → S → Prop} {Q : Except ε β → S → Prop}
    (h : ∀ reply s, Ensures server (next reply) s P ↔ Ensures server (next' reply) s Q) :
    Ensures server (ask r next) s P ↔ Ensures server (ask r next') s Q := by
  apply and_congr_right
  intro _
  apply forall_congr'
  intro reply
  apply forall_congr'
  intro s'
  rw [h reply s']

theorem ensures_bind (p : Program σ ε α) (f : α → Program σ ε β) (s : S)
    (Q : Except ε β → S → Prop) :
    Ensures server (p >>= f) s Q ↔
      Ensures server p s (Then (fun a s => Ensures server (f a) s Q) Q) := by
  induction p generalizing s with
  | done a => exact Iff.rfl
  | fail e => exact Iff.rfl
  | ask r next ih => exact ensures_ask_congr ih

theorem bind_assoc {γ : Type} (p : Program σ ε α) (f : α → Program σ ε β)
    (g : β → Program σ ε γ) : p >>= f >>= g = p >>= fun a => f a >>= g := by
  induction p with
  | done a => rfl
  | fail e => rfl
  | ask r next ih => exact congrArg (ask r) (funext ih)

theorem ensures_attempt (p : Program σ ε α) (s : S) (Q : Except ε (Except ε α) → S → Prop) :
    Ensures server p.attempt s Q ↔ Ensures server p s fun outcome s => Q (.ok outcome) s := by
  induction p generalizing s with
  | done a => exact Iff.rfl
  | fail e => exact Iff.rfl
  | ask r next ih => exact ensures_ask_congr ih

theorem ensures_ofExcept (outcome : Except ε α) (s : S) (Q : Except ε α → S → Prop) :
    Ensures server (ofExcept outcome) s Q ↔ Q outcome s := by
  cases outcome with
  | ok a => exact Iff.rfl
  | error e => exact Iff.rfl

theorem ensures_andFinally (p : Program σ ε α) (cleanup : Program σ ε Unit) (s : S)
    (Q : Except ε α → S → Prop) :
    Ensures server (p.andFinally cleanup) s Q ↔
      Ensures server p s fun outcome s =>
        Ensures server cleanup s (Then (fun _ s => Q outcome s) Q) := by
  have hbind : p.andFinally cleanup =
      p.attempt >>= fun outcome => cleanup >>= fun _ => ofExcept outcome := rfl
  rw [hbind, ensures_bind, ensures_attempt]
  simp only [ensures_bind, ensures_ofExcept]
  exact Iff.rfl

theorem ensures_call_bind {server : Server World S} (r : World.Request)
    (f : World.Reply r → Program World ε α) (s : S) (Q : Except ε α → S → Prop) :
    Ensures server (World.call r >>= f) s Q ↔
      server.Admits r s ∧
        ∀ reply s', server.Serves r s reply s' → Ensures server (f reply) s' Q := Iff.rfl

/--
An attempt is made again while it is interrupted. What holds of every round, given what an
interruption leaves behind, holds of them all.
-/
theorem ensures_restart {server : Server World S} {attempt : Program World ε (Except Errno α)}
    {I : S → Prop} {Q : Except ε (Except Errno α) → S → Prop}
    (h : ∀ s, I s → Ensures server attempt s fun outcome s' =>
      (outcome = .ok (.error .interrupted) → I s') ∧ Q outcome s') (bound : Nat) {s : S}
    (hs : I s) : Ensures server (World.restart attempt bound) s Q := by
  induction bound generalizing s with
  | zero => exact (h s hs).mono fun _ _ => And.right
  | succ bound ih =>
    unfold World.restart
    rw [ensures_bind]
    apply (h s hs).mono
    rintro outcome s' ⟨hinterrupted, hdone⟩
    match outcome with
    | .error e => exact hdone
    | .ok reply =>
      dsimp only [Then]
      split
      . exact ih (hinterrupted rfl)
      . exact hdone

theorem ensures_uninterrupted {server : Server World S}
    {attempt : Program World ε (Except Errno α)} {I : S → Prop}
    {Q : Except ε (Except Errno α) → S → Prop} {s : S} (hadmits : server.Admits .interruptions s)
    (hserves : ∀ bound s', server.Serves .interruptions s bound s' → I s')
    (h : ∀ s, I s → Ensures server attempt s fun outcome s' =>
      (outcome = .ok (.error .interrupted) → I s') ∧ Q outcome s') :
    Ensures server (World.uninterrupted attempt) s Q := by
  refine ⟨hadmits, fun bound s' hs' => ?_⟩
  exact ensures_restart h bound (hserves bound s' hs')

inductive Exec (server : Server σ S) : Program σ ε α → S → Except ε α → S → Prop
  | done (a : α) (s : S) : Exec server (done a) s (.ok a) s
  | fail (e : ε) (s : S) : Exec server (fail e) s (.error e) s
  | ask {r : σ.Request} {next : σ.Reply r → Program σ ε α} {reply : σ.Reply r}
    {outcome : Except ε α} {s s' s'' : S} (hserves : server.Serves r s reply s')
    (h : Exec server (next reply) s' outcome s'') : Exec server (ask r next) s outcome s''

theorem Ensures.of_exec {p : Program σ ε α} {s s' : S} {Q : Except ε α → S → Prop}
    {outcome : Except ε α} (h : Ensures server p s Q) (hexec : Exec server p s outcome s') :
    Q outcome s' := by
  induction hexec with
  | done a s => exact h
  | fail e s => exact h
  | ask hserves _ ih => exact ih (h.2 _ _ hserves)

theorem ensures_true (h : ∀ r s, server.Admits r s) (p : Program σ ε α) (s : S) :
    Ensures server p s fun _ _ => True := by
  induction p generalizing s with
  | done a => trivial
  | fail e => trivial
  | ask r next ih => exact ⟨h r s, fun reply s' _ => ih reply s'⟩

theorem Exec.of_bind {p : Program σ ε α} {f : α → Program σ ε β} {s s'' : S}
    {outcome : Except ε β} (h : Exec server (p >>= f) s outcome s'') :
    (∃ a s', Exec server p s (.ok a) s' ∧ Exec server (f a) s' outcome s'') ∨
      ∃ e, outcome = .error e ∧ Exec server p s (.error e) s'' := by
  induction p generalizing s with
  | done a => exact Or.inl ⟨a, s, .done a s, h⟩
  | fail e =>
    cases h
    exact Or.inr ⟨e, rfl, .fail e _⟩
  | ask r next ih =>
    cases h with
    | ask hserves hnext =>
      cases ih _ hnext with
      | inl hok =>
        obtain ⟨a, s', hp, hf⟩ := hok
        exact Or.inl ⟨a, s', .ask hserves hp, hf⟩
      | inr herror =>
        obtain ⟨e, rfl, hp⟩ := herror
        exact Or.inr ⟨e, rfl, .ask hserves hp⟩

theorem Exec.of_attempt {p : Program σ ε α} {s s' : S} {outcome : Except ε α}
    (h : Exec server p.attempt s (.ok outcome) s') : Exec server p s outcome s' := by
  induction p generalizing s with
  | done a =>
    cases h
    exact .done a _
  | fail e =>
    cases h
    exact .fail e _
  | ask r next ih =>
    cases h with
    | ask hserves hnext => exact .ask hserves (ih _ hnext)

theorem Exec.map {T : Type} {server' : Server σ T} (view : T → S)
    (hserves : ∀ r t reply t', server'.Serves r t reply t' →
      server.Serves r (view t) reply (view t'))
    {p : Program σ ε α} {t t' : T} {outcome : Except ε α} (h : Exec server' p t outcome t') :
    Exec server p (view t) outcome (view t') := by
  induction h with
  | done a t => exact .done a (view t)
  | fail e t => exact .fail e (view t)
  | ask hserved _ ih => exact .ask (hserves _ _ _ _ hserved) ih

theorem Exec.run {serve : (r : σ.Request) → S → σ.Reply r × S}
    (hserve : ∀ r s, server.Serves r s (serve r s).1 (serve r s).2) (p : Program σ ε α) (s : S) :
    Exec server p s (p.run serve s).1 (p.run serve s).2 := by
  induction p generalizing s with
  | done a => exact .done a s
  | fail e => exact .fail e s
  | ask r next ih => exact .ask (hserve r s) (ih _ _)

/--
A program over one interface can be reasoned about in the terms of that interface, if those that
serve it behave as `server` says of a view of their state.
-/
theorem Ensures.serveBy {τ : Interface} {T C : Type} {server' : Server τ T} (view : T → S)
    (inv : C → Prop) {serve : (r : σ.Request) → C → Program τ ε (σ.Reply r × C)}
    (hserve : ∀ r c t, inv c → Ensures server' (serve r c) t fun outcome t' =>
      ∃ reply c', outcome = .ok (reply, c') ∧ inv c' ∧ server.Serves r (view t) reply (view t'))
    {p : Program σ ε α} {t : T} {Q : Except ε α → S → Prop} (h : Ensures server p (view t) Q)
    {c : C} (hc : inv c) :
    Ensures server' (p.serveBy serve c) t fun outcome t' => Q outcome (view t') := by
  induction p generalizing t c with
  | done a => exact h
  | fail e => exact h
  | ask r next ih =>
    change Ensures server' (serve r c >>= _) t _
    rw [ensures_bind]
    apply (hserve r c t hc).mono
    rintro outcome t' ⟨reply, c', rfl, hc', hserves⟩
    exact ih reply (h.2 reply (view t') hserves) hc'

/--
What a program ensures where one server serves it, it ensures where another one does, if the states
of the two can be kept in relation.
-/
theorem Ensures.simulate {T : Type} {server' : Server σ T} (R : S → T → Prop)
    (hadmits : ∀ r s t, R s t → server.Admits r s → server'.Admits r t)
    (hserves : ∀ r s t reply t', R s t → server.Admits r s → server'.Serves r t reply t' →
      ∃ s', server.Serves r s reply s' ∧ R s' t')
    {p : Program σ ε α} {s : S} {t : T} {Q : Except ε α → S → Prop} (h : Ensures server p s Q)
    (hR : R s t) : Ensures server' p t fun outcome t' => ∃ s', R s' t' ∧ Q outcome s' := by
  induction p generalizing s t with
  | done a => exact ⟨s, hR, h⟩
  | fail e => exact ⟨s, hR, h⟩
  | ask r next ih =>
    refine ⟨hadmits r s t hR h.1, ?_⟩
    intro reply t' hserved
    obtain ⟨s', hserves, hR'⟩ := hserves r s t reply t' hR h.1 hserved
    exact ih reply (h.2 reply s' hserves) hR'

end Program

end SchemaMigration

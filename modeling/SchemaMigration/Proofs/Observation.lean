import SchemaMigration.Proofs.Program

/-!
This module contains what can be observed of programs beyond their outcome: the states in which they
make their requests, and the state in which they leave those that serve them.
-/

namespace SchemaMigration

variable {σ τ : Interface} {ε α S T C : Type}

theorem eq_ok_of_toOption {result : Except ε α} {a : α}
    (h : result.toOption = some a) : result = .ok a := by
  cases result with
  | error e => cases h
  | ok b =>
    cases h
    rfl

/-- A server to which nothing is asked but in states that satisfy `I`. -/
def Server.guarded (server : Server σ S) (I : S → Prop) : Server σ S where
  Admits r s := I s ∧ server.Admits r s
  Serves := server.Serves

/-- A server that is only ever in states that satisfy `I` behind a request. -/
def Server.within (server : Server σ S) (I : S → Prop) : Server σ S where
  Admits := server.Admits
  Serves r s reply s' := server.Serves r s reply s' ∧ I s'

namespace Program

variable {server : Server σ S} {server' : Server τ T} {I : S → Prop}

theorem Ensures.of_guarded {p : Program σ ε α} {s : S} {Q : Except ε α → S → Prop}
    (h : Ensures (server.guarded I) p s Q) : Ensures server p s Q := by
  induction p generalizing s with
  | done a => exact h
  | fail e => exact h
  | ask r next ih => exact ⟨h.1.2, fun reply s' hserves => ih reply (h.2 reply s' hserves)⟩

/-- Where every request may be made, a program ensures what holds behind each of its runs. -/
theorem Ensures.of_forall_exec (hadmits : ∀ r s, server.Admits r s) {p : Program σ ε α} {s : S}
    {Q : Except ε α → S → Prop} (h : ∀ outcome s', Exec server p s outcome s' → Q outcome s') :
    Ensures server p s Q := by
  induction p generalizing s with
  | done a => exact h _ _ (.done a s)
  | fail e => exact h _ _ (.fail e s)
  | ask r next ih =>
    refine ⟨hadmits r s, fun reply s' hserves => ih reply fun outcome s'' hexec => ?_⟩
    exact h outcome s'' (.ask hserves hexec)

theorem Ensures.within {p : Program σ ε α} {s : S} {Q : Except ε α → S → Prop}
    (h : Ensures server p s Q) (hs : I s) :
    Ensures (server.within I) p s fun outcome s' => Q outcome s' ∧ I s' := by
  induction p generalizing s with
  | done a => exact ⟨h, hs⟩
  | fail e => exact ⟨h, hs⟩
  | ask r next ih =>
    refine ⟨h.1, ?_⟩
    rintro reply s' ⟨hserves, hs'⟩
    exact ih reply (h.2 reply s' hserves) hs'

theorem Ensures.run {serve : (r : σ.Request) → S → σ.Reply r × S}
    (hserve : ∀ r s, server.Admits r s → server.Serves r s (serve r s).1 (serve r s).2)
    {p : Program σ ε α} {s : S} {Q : Except ε α → S → Prop} (h : Ensures server p s Q) :
    Q (p.run serve s).1 (p.run serve s).2 := by
  induction p generalizing s with
  | done a => exact h
  | fail e => exact h
  | ask r next ih => exact ih _ (h.2 _ _ (hserve r s h.1))

/--
The states that a program goes through where a function serves it: those in which it makes its
requests, and the last one.
-/
def states (serve : (r : σ.Request) → S → σ.Reply r × S) : Program σ ε α → S → List S
  | done _, s => [s]
  | fail _, s => [s]
  | ask r next, s => s :: states serve (next (serve r s).1) (serve r s).2

theorem Ensures.of_mem_states {serve : (r : σ.Request) → S → σ.Reply r × S}
    (hserve : ∀ r s, server.Serves r s (serve r s).1 (serve r s).2) {p : Program σ ε α} {s s' : S}
    (h : Ensures (server.guarded I) p s fun _ s => I s) (hs' : s' ∈ p.states serve s) : I s' := by
  induction p generalizing s with
  | done a =>
    cases List.mem_singleton.mp hs'
    exact h
  | fail e =>
    cases List.mem_singleton.mp hs'
    exact h
  | ask r next ih =>
    cases List.mem_cons.mp hs' with
    | inl hfirst =>
      subst hfirst
      exact h.1.1
    | inr hrest => exact ih _ (h.2 _ _ (hserve r s)) hrest

/-- Like `serveBy`, but with the state of those that serve the program, whether it fails or not. -/
def serveInto (serve : (r : σ.Request) → C → Program τ ε (σ.Reply r × C)) :
    Program σ ε α → C → Program τ ε (Except ε α × C)
  | done a, c => done (.ok a, c)
  | fail e, c => done (.error e, c)
  | ask r next, c => (serve r c).bind fun (reply, c) => serveInto serve (next reply) c

/-- Those that serve a program may keep more than the program needs. -/
theorem serveBy_eq_serveInto {D : Type} (view : D → C)
    {serve : (r : σ.Request) → C → Program τ ε (σ.Reply r × C)}
    {serve' : (r : σ.Request) → D → Program τ ε (σ.Reply r × D)}
    (hserve : ∀ r d, serve r (view d) =
      serve' r d >>= fun result => pure (result.1, view result.2))
    (p : Program σ ε α) (d : D) :
    p.serveBy serve (view d) = p.serveInto serve' d >>= fun result => ofExcept result.1 := by
  induction p generalizing d with
  | done a => rfl
  | fail e => rfl
  | ask r next ih =>
    change (serve r (view d) >>= _) = (serve' r d >>= _) >>= _
    rw [hserve, bind_assoc, bind_assoc]
    exact congrArg (serve' r d >>= ·) (funext fun result => ih result.1 result.2)

theorem bind_pure (p : Program σ ε α) : p >>= pure = p := by
  induction p with
  | done a => rfl
  | fail e => rfl
  | ask r next ih => exact congrArg (ask r) (funext ih)

theorem run_bind_of_ok {β : Type} {serve : (r : σ.Request) → S → σ.Reply r × S}
    {p : Program σ ε α} {s s' : S} {a : α} (h : p.run serve s = (.ok a, s'))
    (f : α → Program σ ε β) : (p >>= f).run serve s = (f a).run serve s' := by
  induction p generalizing s with
  | done b =>
    cases h
    rfl
  | fail e => cases h
  | ask r next ih => exact ih _ h

theorem run_bind_of_error {β : Type} {serve : (r : σ.Request) → S → σ.Reply r × S}
    {p : Program σ ε α} {s s' : S} {e : ε} (h : p.run serve s = (.error e, s'))
    (f : α → Program σ ε β) : (p >>= f).run serve s = (.error e, s') := by
  induction p generalizing s with
  | done b => cases h
  | fail e =>
    cases h
    rfl
  | ask r next ih => exact ih _ h

theorem run_andFinally {serve : (r : σ.Request) → S → σ.Reply r × S} {p : Program σ ε α}
    {cleanup : Program σ ε Unit} {s s' s'' : S} {outcome : Except ε α}
    (h : p.run serve s = (outcome, s')) (hcleanup : cleanup.run serve s' = (.ok (), s'')) :
    (p.andFinally cleanup).run serve s = (outcome, s'') := by
  induction p generalizing s with
  | done a =>
    cases h
    exact run_bind_of_ok hcleanup fun _ => ofExcept (.ok a)
  | fail e =>
    cases h
    exact run_bind_of_ok hcleanup fun _ => ofExcept (.error e)
  | ask r next ih => exact ih _ h

/--
A program over one interface can be reasoned about in the terms of that interface, if a state in
those terms can be kept in relation to those that serve it and to what they use.
-/
theorem Ensures.serveInto (R : S → C → T → Prop)
    {serve : (r : σ.Request) → C → Program τ ε (σ.Reply r × C)}
    (hserve : ∀ r s c t, R s c t → server.Admits r s →
      Ensures server' (serve r c) t fun outcome t' => ∃ reply c' s',
        outcome = .ok (reply, c') ∧ server.Serves r s reply s' ∧ R s' c' t')
    {p : Program σ ε α} {s : S} {c : C} {t : T} {Q : Except ε α → S → Prop}
    (h : Ensures server p s Q) (hR : R s c t) :
    Ensures server' (p.serveInto serve c) t fun outcome t' => ∃ result c' s',
      outcome = .ok (result, c') ∧ R s' c' t' ∧ Q result s' := by
  induction p generalizing s c t with
  | done a => exact ⟨.ok a, c, s, rfl, hR, h⟩
  | fail e => exact ⟨.error e, c, s, rfl, hR, h⟩
  | ask r next ih =>
    change Ensures server' (serve r c >>= _) t _
    rw [ensures_bind]
    apply (hserve r s c t hR h.1).mono
    rintro outcome t' ⟨reply, c', s', rfl, hserves, hR'⟩
    exact ih reply (h.2 reply s' hserves) hR'

end Program

end SchemaMigration

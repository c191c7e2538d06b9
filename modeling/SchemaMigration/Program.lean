/-!
This module contains programs that talk to their surroundings through an interface of requests. A
program is data: the requests it makes, and how it goes on with each reply. What the requests do is
not part of the program, so the same program can be run on a machine, or step by step beside other
programs.
-/

namespace SchemaMigration

structure Interface where
  Request : Type
  Reply : Request → Type

/--
A program over an interface `σ`: it is done with a result, it has failed with an error, or it makes
a request and goes on with the reply.
-/
inductive Program (σ : Interface) (ε α : Type) where
  | done (result : α)
  | fail (error : ε)
  | ask (request : σ.Request) (next : σ.Reply request → Program σ ε α)

namespace Program

variable {σ τ : Interface} {ε α β S : Type}

def bind : Program σ ε α → (α → Program σ ε β) → Program σ ε β
  | done a, f => f a
  | fail e, _ => fail e
  | ask r next, f => ask r fun reply => bind (next reply) f

instance : Monad (Program σ ε) where
  pure := done
  bind := bind

/-- Runs a program to its end and gives its outcome, so that a failure can be looked at. -/
def attempt : Program σ ε α → Program σ ε (Except ε α)
  | done a => done (.ok a)
  | fail e => done (.error e)
  | ask r next => ask r fun reply => attempt (next reply)

instance : MonadExceptOf ε (Program σ ε) where
  throw := fail
  tryCatch p handler := p.attempt.bind fun
    | .ok a => done a
    | .error e => handler e

def ofExcept : Except ε α → Program σ ε α
  | .ok a => done a
  | .error e => fail e

/-- Runs `cleanup` behind a program, whether it fails or not, and keeps its outcome. -/
def andFinally (p : Program σ ε α) (cleanup : Program σ ε Unit) : Program σ ε α :=
  p.attempt.bind fun outcome => cleanup.bind fun _ => ofExcept outcome

def request (r : σ.Request) : Program σ ε (σ.Reply r) := ask r done

/--
Runs a program where a function on states serves the requests: the outcome and the last state.
-/
def run (serve : (r : σ.Request) → S → σ.Reply r × S) : Program σ ε α → S → Except ε α × S
  | done a, s => (.ok a, s)
  | fail e, s => (.error e, s)
  | ask r next, s => run serve (next (serve r s).1) (serve r s).2

/--
Turns a program over one interface into one over another, where each request is served by a program
that may carry a state from request to request.
-/
def serveBy (serve : (r : σ.Request) → S → Program τ ε (σ.Reply r × S)) :
    Program σ ε α → S → Program τ ε α
  | done a, _ => done a
  | fail e, _ => fail e
  | ask r next, s => (serve r s).bind fun (reply, s) => serveBy serve (next reply) s

end Program

end SchemaMigration

import SchemaMigration.Failure

/-!
This module contains the connection to the database: attempts that fail in a way that may pass are
repeated, with delays that double.
-/

namespace SchemaMigration.Connection

/-- How often to try to connect, and how many milliseconds to wait before the second attempt. -/
structure Policy where
  maxAttempts : Nat
  baseDelay : Int
  deriving DecidableEq, Repr

def transientSigns : List Text :=
  [ascii "econnrefused", ascii "etimedout", ascii "enotfound", ascii "ehostunreach",
    ascii "enetunreach", ascii "connection refused", ascii "timeout",
    ascii "temporarily unavailable"]

def isTransient (text : Text) : Bool :=
  transientSigns.any (·.occursIn text.lower)

/--
The delay behind an attempt, counted from one. It doubles up to the twenty-first attempt, as a
signed number of sixty-four bits.
-/
def delay (baseDelay : Int) (attempt : Nat) : Int :=
  (baseDelay * (1 <<< min (attempt - 1) 20 : Nat)).bmod (1 <<< 64)

def tryConnect (attempt : Nat) : Program World Failure (Option Text) := do
  match ← World.call .connect with
  | .error text => return some text.beforeNul
  | .ok () =>
    if 1 < attempt then
      Log.info "Connected after retry" [.int "attempt" attempt]
    return none

def giveUp (attempt : Nat) (cause : Text) : Program World Failure Unit := do
  Log.error "Connection failed"
    [.text "error" cause, .int "attempts" attempt, .bool "transient" (isTransient cause)]
  throw (.noConnection cause attempt)

/--
Tries to connect. The first number says how many attempts may follow the next one, the second is the
number of the next one.
-/
def connectFrom (policy : Policy) (pause : Int → Program World Failure Unit) :
    Nat → Nat → Program World Failure Unit
  | 0, attempt => do
    match ← tryConnect attempt with
    | none => return ()
    | some cause => giveUp attempt cause
  | remaining + 1, attempt => do
    match ← tryConnect attempt with
    | none => return ()
    | some cause =>
      if isTransient cause then
        let wait := delay policy.baseDelay attempt
        Log.warn "Connection attempt failed, retrying"
          [.int "attempt" attempt, .int "max_attempts" (max policy.maxAttempts 1),
            .int "delay_ms" wait, .text "error" cause]
        pause wait
        connectFrom policy pause remaining (attempt + 1)
      else
        giveUp attempt cause

def connect (policy : Policy) (pause : Int → Program World Failure Unit) :
    Program World Failure Unit :=
  connectFrom policy pause (policy.maxAttempts - 1) 1

end SchemaMigration.Connection

import SchemaMigration.Text

/-!
This module contains the log: levels, records with fields, and the filter that decides which records
are written.
-/

namespace SchemaMigration.Log

/-- The levels of records, lowest first; `off` is a threshold that nothing reaches. -/
inductive Level where
  | trace | debug | info | warning | error | critical | off
  deriving DecidableEq, Repr

namespace Level

def rank : Level → Nat
  | trace => 0
  | debug => 1
  | info => 2
  | warning => 3
  | error => 4
  | critical => 5
  | off => 6

def name : Level → Text
  | trace => ascii "trace"
  | debug => ascii "debug"
  | info => ascii "info"
  | warning => ascii "warning"
  | error => ascii "error"
  | critical => ascii "critical"
  | off => ascii "off"

def all : List Level := [trace, debug, info, warning, error, critical, off]

/-- The level of a name. Two short names are understood; an unknown name turns the log off. -/
def ofName (name : Text) : Level :=
  if name == ascii "warn" then warning
  else if name == ascii "err" then error
  else (all.find? (·.name == name)).getD off

def ofSetting (setting : Text) : Level :=
  if setting.isEmpty then info else ofName setting

end Level

structure Field where
  key : Text
  value : Text
  deriving DecidableEq, Repr

namespace Field

def text (key : String) (value : Text) : Field := ⟨ascii key, value⟩

def int (key : String) (value : Int) : Field := ⟨ascii key, Text.ofInt value⟩

def bool (key : String) (value : Bool) : Field :=
  ⟨ascii key, if value then ascii "true" else ascii "false"⟩

def render (f : Field) : Text := f.key ++ byte '=' :: f.value

end Field

def withFields (message : Text) (fields : List Field) : Text :=
  match fields with
  | [] => message
  | _ => message ++ byte ' ' :: Text.join [byte ' '] (fields.map Field.render)

inductive Entry where
  | message (level : Level) (text : Text) (fields : List Field)
  | audit (action : Text) (fields : List Field)
  deriving DecidableEq, Repr

structure Record where
  level : Level
  text : Text
  deriving DecidableEq, Repr

/-- Which records are written: from which level on, with or without the audit trail, if at all. -/
structure Filter where
  threshold : Level
  audit : Bool
  sink : Bool
  deriving DecidableEq, Repr

def Entry.record : Entry → Record
  | message level text fields => ⟨level, withFields text fields⟩
  | audit action fields => ⟨.info, withFields (ascii "audit action=" ++ action) fields⟩

def Entry.isAudit : Entry → Bool
  | message .. => false
  | audit .. => true

def Filter.admits (f : Filter) (e : Entry) : Bool :=
  f.sink && f.threshold.rank ≤ e.record.level.rank && (f.audit || !e.isAudit)

def Filter.record? (f : Filter) (e : Entry) : Option Record :=
  if f.admits e then some e.record else none

end SchemaMigration.Log

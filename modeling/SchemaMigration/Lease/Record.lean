import SchemaMigration.Json

/-!
This module contains the record that a lock file holds.
-/

namespace SchemaMigration.Lease

structure Record where
  pid : Int
  hostName : Text
  token : Text
  acquiredAt : Text
  acquiredAtMillis : Int
  deriving DecidableEq, Repr

namespace Record

def empty : Record := ⟨0, [], [], [], 0⟩

def toJson (r : Record) : Json :=
  .object [
    (ascii "pid", .ofInt r.pid),
    (ascii "hostname", .string r.hostName),
    (ascii "token", .string r.token),
    (ascii "acquiredAt", .string r.acquiredAt),
    (ascii "acquiredAtMs", .string (Text.ofInt r.acquiredAtMillis))]

/-- Takes one member of a document into a record; members of other names do not matter. -/
def withMember? (r : Record) (member : Text × Json) : Option Record :=
  let (key, value) := member
  if key == ascii "pid" then (value.toInt? 32).map fun pid => { r with pid }
  else if key == ascii "hostname" then value.toText?.map fun hostName => { r with hostName }
  else if key == ascii "token" then value.toText?.map fun token => { r with token }
  else if key == ascii "acquiredAt" || key == ascii "acquired_at" then
    value.toText?.map fun acquiredAt => { r with acquiredAt }
  else if key == ascii "acquiredAtMs" || key == ascii "acquired_at_ms" then
    (value.toInt? 64).map fun acquiredAtMillis => { r with acquiredAtMillis }
  else some r

def ofJson? : Json → Option Record
  | .object members => members.foldlM withMember? empty
  | _ => none

/--
The record of a lock file. A file that is written only in part, or by somebody else, gives the empty
record.
-/
def decode (content : Text) : Record :=
  ((Json.parse? content).bind ofJson?).getD empty

def encode (r : Record) : Text := r.toJson.render

end Record

end SchemaMigration.Lease

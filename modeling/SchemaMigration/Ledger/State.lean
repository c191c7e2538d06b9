import SchemaMigration.Failure
import SchemaMigration.Json

/-!
This module contains the state of a ledger, which records the migrations that have been applied, in
batches, and its form as a JSON document.
-/

namespace SchemaMigration.Ledger

structure Entry where
  file : Text
  hash : Text
  appliedAt : Text
  batch : Int
  deriving DecidableEq, Repr

structure State where
  entries : List Entry
  currentBatch : Int
  deriving DecidableEq, Repr

namespace State

def empty : State := ⟨[], 0⟩

def newestBatch (entries : List Entry) : Int := entries.foldl (fun n e => max n e.batch) 0

def files (s : State) : List Text := s.entries.map (·.file)

def isApplied (s : State) (file : Text) : Bool := s.entries.any (·.file == file)

def pending (s : State) (files : List Text) : List Text :=
  (Text.sortDistinct files).filter (!s.isApplied ·)

def lastBatch (s : State) : List Entry :=
  if s.currentBatch = 0 then []
  else s.entries.reverse.filter (·.batch == s.currentBatch)

def without (s : State) (drop : Entry → Bool) : State :=
  let kept := s.entries.filter (!drop ·)
  ⟨kept, newestBatch kept⟩

def entryToJson (e : Entry) : Json :=
  .object [
    (ascii "filename", .string e.file),
    (ascii "hash", .string e.hash),
    (ascii "appliedAt", .string e.appliedAt),
    (ascii "batch", .ofInt e.batch)]

def toJson (s : State) : Json :=
  .object [
    (ascii "entries", .array (s.entries.map entryToJson)),
    (ascii "currentBatch", .ofInt s.currentBatch)]

def encode (s : State) : Text := s.toJson.render

/-- Takes one member of a document into an entry; other members are refused. -/
def withEntryMember? (e : Entry) (member : Text × Json) : Option Entry :=
  let (key, value) := member
  if key == ascii "filename" then value.toText?.map fun file => { e with file }
  else if key == ascii "hash" then value.toText?.map fun hash => { e with hash }
  else if key == ascii "appliedAt" || key == ascii "applied_at" then
    value.toText?.map fun appliedAt => { e with appliedAt }
  else if key == ascii "batch" then (value.toInt? 32).map fun batch => { e with batch }
  else none

def entryOfJson? : Json → Option Entry
  | .object members => members.foldlM withEntryMember? ⟨[], [], [], 0⟩
  | _ => none

/-- Takes one member of a document into a state; other members are refused. -/
def withMember? (s : State) (member : Text × Json) : Option State :=
  let (key, value) := member
  if key == ascii "entries" then
    match value with
    | .array elements => (elements.mapM entryOfJson?).map fun entries => { s with entries }
    | .null => some { s with entries := [] }
    | _ => none
  else if key == ascii "currentBatch" || key == ascii "current_batch" then
    (value.toInt? 32).map fun currentBatch => { s with currentBatch }
  else none

def entryFault? (currentBatch : Int) (seen : List Text) (e : Entry) : Option Corruption :=
  if e.file.isEmpty || e.hash.isEmpty then some .incompleteEntry
  else if seen.contains e.file then some (.duplicate e.file)
  else if e.batch < 1 || currentBatch < e.batch then
    some (.batchOutside e.file e.batch currentBatch)
  else none

def entriesFault? (currentBatch : Int) : List Text → List Entry → Option Corruption
  | _, [] => none
  | seen, e :: rest =>
    match entryFault? currentBatch seen e with
    | some fault => some fault
    | none => entriesFault? currentBatch (e.file :: seen) rest

def fault? (s : State) : Option Corruption :=
  match entriesFault? s.currentBatch [] s.entries with
  | some fault => some fault
  | none =>
    if s.currentBatch = newestBatch s.entries then none
    else some (.wrongCurrentBatch s.currentBatch (newestBatch s.entries))

/-- The state of a document, whatever it says about batches. -/
def ofJson? : Json → Option State
  | .object members => members.foldlM withMember? empty
  | _ => none

def shapeFault? (members : List (Text × Json)) : Option Corruption :=
  match Json.find? (ascii "entries") members with
  | some (.array _) =>
    match Json.find? (ascii "currentBatch") members with
    | some (.number _ _) => none
    | _ => some .currentBatchNotNumber
  | _ => some .entriesNotList

/-- A library that reads documents and states from texts, and writes states as texts. -/
structure Format where
  document? : Text → Option Json
  read? : Text → Option State
  write? : State → Option Text

def format : Format where
  document? := Json.parse?
  read? content := (Json.parse? content).bind ofJson?
  write? s := Json.print? s.toJson

/--
The state of a ledger file, if the content is that of a ledger. The kinds of the members are looked
at first, so that one that is missing is reported as such.
-/
def decodeBy (format : Format) (content : Text) : Except Corruption State :=
  match format.document? content with
  | none => .error .notJson
  | some (.object members) =>
    match shapeFault? members with
    | some fault => .error fault
    | none =>
      match format.read? content with
      | none => .error .badMember
      | some s =>
        match s.fault? with
        | some fault => .error fault
        | none => .ok s
  | some _ => .error .notObject

def decode (content : Text) : Except Corruption State := decodeBy format content

def serialize (s : State) : Except Failure Text :=
  match format.write? s with
  | none => .error .ledgerNotSerialized
  | some content => .ok content

end State

end SchemaMigration.Ledger

import SchemaMigration.Calendar
import SchemaMigration.Command
import SchemaMigration.Digest
import SchemaMigration.Json
import SchemaMigration.Log
import SchemaMigration.Machine.Machine
import SchemaMigration.Main
import SchemaMigration.Name
import SchemaMigration.Path
import SchemaMigration.Schema.Parser
import SchemaMigration.Schema.Printer
import SchemaMigration.Sql.Statement
import SchemaMigration.Proofs.Basic
import SchemaMigration.Proofs.Schema.Lexing
import SchemaMigration.Proofs.Schema.Tokenizing
import SchemaMigration.Proofs.Schema.Printing
import SchemaMigration.Proofs.Schema.Parsing
import SchemaMigration.Proofs.Schema.Refusal
import SchemaMigration.Proofs.Schema.RoundTrip
import SchemaMigration.Proofs.Schema.LineEndings
import SchemaMigration.Proofs.Schema.Joining
import SchemaMigration.Proofs.Schema.Viability
import SchemaMigration.Proofs.Schema.Tracking
import SchemaMigration.Proofs.Schema.Offence
import SchemaMigration.Proofs.Decimal
import SchemaMigration.Proofs.Files
import SchemaMigration.Proofs.Json
import SchemaMigration.Proofs.Utf8
import SchemaMigration.Proofs.JsonUtf8
import SchemaMigration.Proofs.Program
import SchemaMigration.Proofs.Lease.Record
import SchemaMigration.Proofs.Lease.Fleet
import SchemaMigration.Proofs.Lease.Protocol
import SchemaMigration.Proofs.Lease.Coherence
import SchemaMigration.Proofs.Lease.Exclusion
import SchemaMigration.Proofs.Ledger.Encoding
import SchemaMigration.Proofs.Lease.Footprint
import SchemaMigration.Proofs.Replacement
import SchemaMigration.Proofs.Ledger.Session
import SchemaMigration.Proofs.Ledger.Memory
import SchemaMigration.Proofs.Ledger.Serial
import SchemaMigration.Proofs.Ledger.Operations
import SchemaMigration.Proofs.Ledger.Atomicity
import SchemaMigration.Proofs.Ledger.Sharing
import SchemaMigration.Proofs.Run.History
import SchemaMigration.Proofs.Run.Service
import SchemaMigration.Proofs.Run.Course
import SchemaMigration.Proofs.Run.Account
import SchemaMigration.Proofs.Run.Agreement
import SchemaMigration.Proofs.Sql.ColumnType
import SchemaMigration.Proofs.Sql.Quoting
import SchemaMigration.Proofs.Sql.Inverse
import SchemaMigration.Proofs.Ledger.Order
import SchemaMigration.Proofs.Run.Inverse
import SchemaMigration.Proofs.Run.Interleaving
import SchemaMigration.Proofs.Run.Batches
import SchemaMigration.Proofs.Run.Timeliness
import SchemaMigration.Proofs.Ledger.RoundTrip
import SchemaMigration.Proofs.Ledger.NewestBatch
import SchemaMigration.Proofs.Sql.Acceptance
import SchemaMigration.Proofs.Sql.Effect
import SchemaMigration.Proofs.Sql.Catalogue
import SchemaMigration.Proofs.Run.Agenda
import SchemaMigration.Proofs.Run.Station
import SchemaMigration.Proofs.Run.Docket
import SchemaMigration.Proofs.Run.Resumption
import SchemaMigration.Proofs.Ledger.Recording
import SchemaMigration.Proofs.Ledger.Undo
import SchemaMigration.Proofs.Lease.Foreign
import SchemaMigration.Proofs.Run.Calls
import SchemaMigration.Proofs.Run.Directory
import SchemaMigration.Proofs.Run.Minutes
import SchemaMigration.Proofs.Run.Sitting
import SchemaMigration.Proofs.Observation
import SchemaMigration.Proofs.Machine.Disk
import SchemaMigration.Proofs.Machine.Paths
import SchemaMigration.Proofs.Machine.Alteration
import SchemaMigration.Proofs.Machine.Alone
import SchemaMigration.Proofs.Machine.Service
import SchemaMigration.Proofs.Machine.Replacement
import SchemaMigration.Proofs.Ledger.Probe
import SchemaMigration.Proofs.Lease.Vigil
import SchemaMigration.Proofs.Lease.Waiting
import SchemaMigration.Proofs.Lease.Tidiness
import SchemaMigration.Proofs.Ledger.CleanUp
import SchemaMigration.Proofs.Machine.CleanUp
import SchemaMigration.Proofs.Run.Retrying
import SchemaMigration.Proofs.Sql.Escaping
import SchemaMigration.Proofs.Machine.Directories
import SchemaMigration.Proofs.Machine.Addition
import SchemaMigration.Proofs.Migration.Name
import SchemaMigration.Proofs.Migration.Scaffold
import SchemaMigration.Proofs.Migration.FileName
import SchemaMigration.Proofs.Migration.Creation
import SchemaMigration.Proofs.Calendar
import SchemaMigration.Proofs.Timestamp
import SchemaMigration.Proofs.Log
import SchemaMigration.Proofs.Lease.Hosts
import SchemaMigration.Proofs.Run.Chronology
import SchemaMigration.Proofs.Migration.Loading
import SchemaMigration.Proofs.Ledger.Trail
import SchemaMigration.Proofs.Run.Tally
import SchemaMigration.Proofs.Run.Trail
import SchemaMigration.Proofs.Schema.Bare
import SchemaMigration.Proofs.Sql.Default
import SchemaMigration.Proofs.Sql.Action

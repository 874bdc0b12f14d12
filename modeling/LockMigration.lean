import LockMigration.Activity
import LockMigration.Batch.FileTable
import LockMigration.Batch.Report
import LockMigration.Batch.Task
import LockMigration.CommandLine.Parse
import LockMigration.CommandLine.Switch
import LockMigration.Config.Basic
import LockMigration.Config.Overrides
import LockMigration.Config.Read
import LockMigration.Conversion.Draft
import LockMigration.Conversion.Splice
import LockMigration.CrashReport
import LockMigration.Decimal.Binary
import LockMigration.Decimal.Shortest
import LockMigration.Disk.Basic
import LockMigration.Disk.Settings
import LockMigration.Disk.Walk
import LockMigration.Error
import LockMigration.Glob.Pattern
import LockMigration.Java.Body
import LockMigration.Java.Context
import LockMigration.Java.Fault
import LockMigration.Java.MemberStart
import LockMigration.Java.Occurrence
import LockMigration.Java.Package
import LockMigration.Java.Scan
import LockMigration.Locker
import LockMigration.Main
import LockMigration.Metas
import LockMigration.Migration
import LockMigration.Path
import LockMigration.Run.Complaint
import LockMigration.Run.Init
import LockMigration.Run.Migrate
import LockMigration.Run.Program
import LockMigration.Run.Scan
import LockMigration.Run.Transcript
import LockMigration.Text.Blank
import LockMigration.Text.Integer
import LockMigration.Text.Marks
import LockMigration.Text.Offset
import LockMigration.Text.Word
import LockMigration.Toml.Digits
import LockMigration.Toml.Document
import LockMigration.Toml.Moment
import LockMigration.Toml.Quoted
import LockMigration.Toml.Scalar
import LockMigration.Toml.Value
import LockMigration.Verbosity
import LockMigration.Proofs.Conversion.Carry
import LockMigration.Proofs.Conversion.Frame
import LockMigration.Proofs.Conversion.Idempotence
import LockMigration.Proofs.Conversion.Import
import LockMigration.Proofs.Conversion.Keywords
import LockMigration.Proofs.Conversion.Order
import LockMigration.Proofs.Conversion.Plain
import LockMigration.Proofs.Conversion.Preview
import LockMigration.Proofs.Conversion.Readings
import LockMigration.Proofs.Conversion.Script
import LockMigration.Proofs.Conversion.Splices
import LockMigration.Proofs.Java.Keyword
import LockMigration.Proofs.Java.Member
import LockMigration.Proofs.Java.Occurrences
import LockMigration.Proofs.Java.Reading
import LockMigration.Proofs.Locker
import LockMigration.Proofs.Conversion.Termination
import LockMigration.Proofs.Java.Kinds
import LockMigration.Proofs.Java.Level
import LockMigration.Proofs.Text.Parts
import LockMigration.Proofs.Java.Attachment
import LockMigration.Proofs.Conversion.Braces
import LockMigration.Proofs.Conversion.Freshness
import LockMigration.Proofs.Java.Package
import LockMigration.Proofs.Conversion.TopLevel
import LockMigration.Proofs.LockNames
import LockMigration.Proofs.Batch.Pool
import LockMigration.Proofs.Batch.Isolation
import LockMigration.Proofs.Text.Octets
import LockMigration.Proofs.Java.Octets
import LockMigration.Proofs.Conversion.Bytes
import LockMigration.Proofs.Conversion.OwnBody
import LockMigration.Proofs.Java.Comments
import LockMigration.Proofs.Java.Tokens
import LockMigration.Proofs.Java.Report
import LockMigration.Proofs.Java.Cursor
import LockMigration.Proofs.Conversion.FaultPlace
import LockMigration.Proofs.Outcomes
import LockMigration.Proofs.Path
import LockMigration.Proofs.Java.Insertion
import LockMigration.Proofs.Java.Braces
import LockMigration.Proofs.Conversion.BodyBraces
import LockMigration.Proofs.Disk.Tree
import LockMigration.Proofs.Disk.Walk
import LockMigration.Proofs.Disk.Selection
import LockMigration.Proofs.Disk.Spelling
import LockMigration.Proofs.Disk.Discovery
import LockMigration.Proofs.Config.Precedence

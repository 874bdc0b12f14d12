/-
The report of a crash: what was being done, and that the file at hand was left untouched.
-/
import LockMigration.Activity
import LockMigration.Decimal.Binary
import LockMigration.Text.Integer

namespace LockMigration.CrashReport

/-- The version of the program. -/
def version : String := "0.1.0"

/-- The name of the system the program runs on. -/
def system : String := "linux"

/-- The line that frames the report. -/
def rule : String := String.ofList (List.replicate 80 '═')

/-- The longest message that is shown whole. -/
def messageLimit : Nat := 68

/-- The message, cut with three dots if it is too long. -/
def shorten (message : String) : String :=
  let cs := message.toList
  if cs.length ≤ messageLimit then message
  else String.ofList (cs.take (messageLimit - 3)) ++ "..."

/-- The part that is done in percent, without its fraction. Each operation rounds to the double
format, so the result can be one less than the exact one. -/
def percent (processed total : Nat) : Nat :=
  let value : Option Decimal.Binary := do
    let ratio ← (← Decimal.Binary.ofNat processed).div (← Decimal.Binary.ofNat total)
    ratio.mul (← Decimal.Binary.ofNat 100)
  min Text.greatestNat64 ((value.map Decimal.Binary.floor).getD 0)

/-- The lines on the activity. -/
def activityLines (t : Tracker) : List String :=
  let phase :=
    match t.now.phase with
    | some p => s!"  Phase: {p.name}"
    | none => "  Phase: (not set - crash occurred before migration started)"
  let file := t.now.file.toList.map fun p => s!"  File: {p.display}"
  let done := t.processed.toNat
  let all := t.total.toNat
  let progress :=
    if all = 0 then [] else [s!"  Progress: {done} / {all} files ({percent done all}%)"]
  phase :: file ++ progress

/-- The lines of the report. A crash without a message has none to show. -/
def lines (message : Option String) (t : Tracker) : List String :=
  ["", rule, s!"  SYNCMIGRATE CRASH REPORT (version {version}, {system})", rule,
    "  PANIC: " ++ shorten (message.getD "Unknown panic")] ++
  activityLines t ++
  ["  Run with RUST_BACKTRACE=1 for stack trace", rule] ++
  t.now.file.toList.map fun p => s!"The file being migrated was left untouched: {p.display}"

/-- The text of the report. -/
def text (message : Option String) (t : Tracker) : String :=
  String.join ((lines message t).map (· ++ "\n"))

end LockMigration.CrashReport

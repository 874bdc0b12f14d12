/-
The command that lists the occurrences in files without changing them, one line each or as JSON.
Files that cannot be read or scanned are left out.
-/
import LockMigration.Disk.Settings
import LockMigration.Disk.Walk
import LockMigration.Java.Scan
import LockMigration.Run.Transcript

namespace LockMigration.Run

open Java

/-- The files to scan: those that are named, then those below the directories that are named, or
below the configured ones if nothing is named. -/
def scanFiles (d : Disk) (paths : List Path) (config : Option Path) :
    Except Complaint (List Path) := do
  let c ← (d.loadConfig config).mapError fun e =>
    (Complaint.ofError e).under "Failed to load configuration"
  let (files, others) := paths.partition d.isFile
  if others.isEmpty && !paths.isEmpty then return files
  let selection ← (Selection.ofConfig c).mapError Complaint.ofError
  let roots := if others.isEmpty then selection.roots else others
  let walked ← (d.select { selection with roots }).mapError Complaint.ofError
  return files ++ walked

/-- The occurrences in a file, none if it cannot be read or scanned. -/
def entriesOf (d : Disk) (path : Path) : List ScanEntry :=
  match d.readText path with
  | .error _ => []
  | .ok text =>
    match scanSource path text.toList with
    | .ok entries => entries
    | .error _ => []

/-! ## Printing -/

/-- An occurrence as a line. -/
def plainLine (e : ScanEntry) : String :=
  s!"{e.path.display}:{e.line} {e.start}..{e.stop} {e.kind.name}\n"

/-- A digit of base sixteen. -/
def hexDigit (n : Nat) : Char :=
  if n < 10 then Char.ofNat ('0'.toNat + n) else Char.ofNat ('a'.toNat + n - 10)

/-- A character inside a JSON string. -/
def jsonChar (c : Char) : List Char :=
  if c = '"' then ['\\', '"']
  else if c = '\\' then ['\\', '\\']
  else if c = '\x08' then ['\\', 'b']
  else if c = '\t' then ['\\', 't']
  else if c = '\n' then ['\\', 'n']
  else if c = '\x0c' then ['\\', 'f']
  else if c = '\r' then ['\\', 'r']
  else if c.toNat < 0x20 then
    ['\\', 'u', '0', '0', hexDigit (c.toNat / 16), hexDigit (c.toNat % 16)]
  else [c]

/-- A JSON string. -/
def jsonString (s : String) : String :=
  String.ofList ('"' :: s.toList.flatMap jsonChar ++ ['"'])

/-- An occurrence as a JSON object, indented by two spaces. -/
def jsonObject (e : ScanEntry) : String :=
  let field (name value : String) : String := "    " ++ jsonString name ++ ": " ++ value
  "  \x7b\n" ++ String.intercalate ",\n"
    [field "path" (jsonString e.path.display), field "line" (toString e.line),
      field "start" (toString e.start), field "end" (toString e.stop),
      field "kind" (jsonString e.kind.name)] ++ "\n  \x7d"

/-- All occurrences as a JSON array. -/
def jsonArray (es : List ScanEntry) : String :=
  if es.isEmpty then "[]\n"
  else "[\n" ++ String.intercalate ",\n" (es.map jsonObject) ++ "\n]\n"

/-- Runs the command. -/
def scan (d : Disk) (paths : List Path) (config : Option Path) (json : Bool) :
    Transcript (List ScanEntry) :=
  match scanFiles d paths config with
  | .error complaint => .complain d complaint
  | .ok files =>
    let entries := files.flatMap (entriesOf d)
    { result := .ok entries
      stdout := if json then jsonArray entries else String.join (entries.map plainLine)
      disk := d }

end LockMigration.Run

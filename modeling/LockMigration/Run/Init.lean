/-
The command that writes a configuration file to start from.
-/
import LockMigration.Config.Read
import LockMigration.Run.Transcript

namespace LockMigration.Run

/-- The configuration file of a directory. -/
def configPathIn (dir : Path) : Path :=
  dir.join (.ofString configFileName)

/-- Writes the file into a directory and gives its path. A file that is there is kept unless it is
to be replaced. -/
def initIn (d : Disk) (dir : Path) (force : Bool) : Except Complaint (Disk × Path) :=
  let path := configPathIn dir
  if d.isThere path && !force then
    .error ⟨"Configuration file already exists. Use --force to overwrite.", []⟩
  else
    match d.writeText path Config.template with
    | .ok after => .ok (after, path)
    | .error fault => .error (.ofError (.fileSystem path fault))

/-- Runs the command in the working directory. -/
def init (d : Disk) (force : Bool) : Transcript Unit :=
  match initIn d ⟨['.']⟩ force with
  | .error complaint => .complain d complaint
  | .ok (after, path) =>
    { result := .ok ()
      stdout := s!"Created {path.display} configuration file\n"
      disk := after }

end LockMigration.Run

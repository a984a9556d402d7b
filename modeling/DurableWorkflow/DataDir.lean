import DurableWorkflow.Config
import DurableWorkflow.Toml.Reader

/-!
# The data directory

Where the configuration and the stored instances are kept, and what its configuration file says.
-/

namespace DurableWorkflow

namespace EngineConfig

/-- The settings of a configuration file. A file that is not there, is not UTF-8, is not TOML, or
has a setting of the wrong kind leaves every setting at its default. -/
def ofFile (content : Option ByteArray) : EngineConfig :=
  (do
    let bytes ← content
    let text ← String.fromUTF8? bytes
    let document ← Toml.parse text
    ofDocument? document).getD {}

end EngineConfig

namespace DataDir

/-- A name inside a directory. -/
def inside (dir name : String) : String :=
  if dir.isEmpty then name
  else if dir.toList.getLast? == some '/' then dir ++ name
  else dir ++ "/" ++ name

/-- The directory that was asked for, or the one in the home directory. -/
def resolve (asked : Option String) (home : Option String) : String :=
  match asked with
  | some dir => if dir.isEmpty then inside (home.getD ".") ".waypoint" else dir
  | none => inside (home.getD ".") ".waypoint"

/-- The address of the stored instances in a data directory. -/
def databaseUrl (dir : String) : String := "sqlite://" ++ inside dir "waypoint.db"

end DataDir

end DurableWorkflow

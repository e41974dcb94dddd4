/-!
Records are the lines of the log: what building, registering and simulating have to tell.
-/

namespace ClockedLogic

inductive Level where
  | warn
  | debug
  | trace
deriving DecidableEq, Repr

structure Record where
  level : Level
  message : String
deriving DecidableEq, Repr

namespace Record

def levelText : Level → String
  | .warn => "WARN"
  | .debug => "DEBUG"
  | .trace => "TRACE"

def text (record : Record) : String := s!"{levelText record.level} {record.message}"

end Record

end ClockedLogic

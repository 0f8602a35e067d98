/-!
# The journal

Analyses tell what they do in messages, each with a level. The journal of a computation is the
list of its messages, in the order in which things happened. No result depends on it: journals are
computed beside the results, by functions of their own.
-/

namespace EvmAccess

/-- How important a message is. -/
inductive Level where
  | error
  | warn
  | info
  | debug
  | trace
  deriving DecidableEq, Repr

namespace Level

/-- The name of a level in a journal. -/
def name : Level → String
  | .error => "ERROR"
  | .warn => "WARN"
  | .info => "INFO"
  | .debug => "DEBUG"
  | .trace => "TRACE"

/-- Levels counted from the most severe one. -/
def rank : Level → Nat
  | .error => 0
  | .warn => 1
  | .info => 2
  | .debug => 3
  | .trace => 4

end Level

/-- One entry of a journal. -/
structure Message where
  /-- How important it is. -/
  level : Level
  /-- What it says. -/
  text : String
  deriving DecidableEq, Repr

namespace Message

/-- The message as a line, starting with its level. -/
def render (m : Message) : String := s!"{m.level.name} {m.text}"

/-- The messages that are at least as severe as `level`, as lines. -/
def linesUpTo (level : Level) (ms : List Message) : List String :=
  (ms.filter fun m => m.level.rank ≤ level.rank).map render

end Message

end EvmAccess

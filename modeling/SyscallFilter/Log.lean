/-! Log lines: a level and a message. -/
namespace SyscallFilter

inductive Log.Level where
  | trace
  | debug
  | info
  | warn
  deriving DecidableEq, Repr

def Log.Level.text : Log.Level → String
  | trace => "TRACE"
  | debug => "DEBUG"
  | info => "INFO"
  | warn => "WARN"

structure Log.Line where
  level : Log.Level
  message : String
  deriving DecidableEq, Repr

def Log.Line.text (line : Log.Line) : String :=
  line.level.text ++ " " ++ line.message

end SyscallFilter

import BlockCompiler.Error
import BlockCompiler.Signature

/-!
# The journal of a compilation

Compiling leaves a record of what happened, as a list of events.  Nothing depends on it: it is for a
reader who wants to follow a compilation.  Routine bookkeeping is reported at the finer level.
-/

namespace BlockCompiler

/-- How fine a report is. -/
inductive Level where
  | debug
  | trace
deriving DecidableEq, Repr, Inhabited

/-- The name of a level. -/
def Level.name : Level → String
  | debug => "DEBUG"
  | trace => "TRACE"

/-- Something that happened during a compilation. -/
inductive Event where
  /-- An entry was registered. -/
  | declared (signature : Signature)
  /-- An entry received its code, of this many bytes. -/
  | defined (name : String) (size : Nat)
  /-- The registration of a function whose body failed was taken back. -/
  | abandoned (name : String) (error : CompileError)
  /-- An anonymous function was found compiled already, as `name`. -/
  | lambdaReused (name text : String)
  /-- An anonymous function was compiled. -/
  | lambdaHoisted (text : String) (signature : Signature)
  /-- All anonymous functions were compiled, under this many texts. -/
  | hoisted (count : Nat)
  /-- A constant was found wrapped already, as `name`. -/
  | constantReused (name text : String)
  /-- A constant was wrapped into a function. -/
  | constantPromoted (text : String) (signature : Signature)
  /-- A declared function could not be compiled. -/
  | functionFailed (name : String) (error : CompileError)
  /-- An anonymous function could not be compiled. -/
  | hoistingFailed (error : CompileError)
deriving DecidableEq, Repr, Inhabited

namespace Event

/-- The level at which an event is reported. -/
def level : Event → Level
  | declared _ | defined _ _ | abandoned _ _ => .trace
  | lambdaReused _ _ | lambdaHoisted _ _ | hoisted _ | constantReused _ _ | constantPromoted _ _
  | functionFailed _ _ | hoistingFailed _ => .debug

/-- The words of an event. -/
def message : Event → String
  | declared s =>
    "declaring entry point " ++ s.name ++ s.descriptor ++ " (" ++ s.hash.render ++ ")"
  | defined name size => "defined " ++ name ++ " (" ++ toString size ++ " bytes)"
  | abandoned name error => "abandoning " ++ name ++ ": " ++ error.message
  | lambdaReused name text => "reusing " ++ name ++ " for lambda " ++ text
  | lambdaHoisted text s => "hoisted lambda " ++ text ++ " as " ++ s.name ++ s.descriptor
  | hoisted count => "hoisted " ++ toString count ++ " lambda(s)"
  | constantReused name text => "reusing " ++ name ++ " for constant " ++ text
  | constantPromoted text s => "promoted constant " ++ text ++ " to " ++ s.name ++ s.descriptor
  | functionFailed name error => "function " ++ name ++ " failed: " ++ error.message
  | hoistingFailed error => "lambda hoisting failed: " ++ error.message

end Event

end BlockCompiler

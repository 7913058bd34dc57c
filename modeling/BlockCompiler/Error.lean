import BlockCompiler.Span
import BlockCompiler.Ty

/-!
# Errors

A `CompileError` says where compilation failed and why.  The cause is data, and `Cause.message` words
it; the text of an error is the position followed by those words.

Causes of kind `internal` carry a `Fault`: a condition that the compiler itself is responsible for,
and the piece of source it was working on.
-/

namespace BlockCompiler

/-- What went wrong inside the compiler. -/
inductive Fault where
  /-- The last statement of a body that has to produce a value left none. -/
  | noValueLeft (expected : Ty)
  /-- A call has more arguments than its operand can count. -/
  | tooManyArguments
  /-- A function has more arguments than there are slots. -/
  | tooManySlots
  /-- An operand was taken from an empty stack. -/
  | stackUnderflow
  /-- Operands, bottom first, were left where none may be. -/
  | stackNotEmpty (operands : List Ty)
  /-- An anonymous function was not compiled before it was used. -/
  | lambdaNotHoisted
  /-- Code was given for an entry that is not registered. -/
  | undeclaredEntry
  /-- Code was given for an entry that has code. -/
  | entryDefinedTwice
  /-- A fault reported in the reporter's own words. -/
  | other (text : String)
deriving DecidableEq, Repr, Inhabited

/-- The words of a fault. -/
def Fault.message : Fault → String
  | noValueLeft expected =>
    "body of a function returning '" ++ expected.render ++ "' left no value"
  | tooManyArguments => "too many call arguments"
  | tooManySlots => "too many local slots"
  | stackUnderflow => "operand stack underflow"
  | stackNotEmpty operands =>
    "operand stack not empty: [" ++ ", ".intercalate (operands.map Ty.render) ++ "]"
  | lambdaNotHoisted => "lambda was not hoisted"
  | undeclaredEntry => "defining an undeclared entry point"
  | entryDefinedTwice => "entry point defined twice"
  | other text => text

/-- Why compilation failed.  Types appear in their written form. -/
inductive Cause where
  | unknownIdentifier (name : String)
  | argumentTypeMismatch (function : String) (position : Nat) (argument expected actual : String)
  | argumentCountMismatch (function : String) (expected actual : Nat)
  | pairTypeMismatch (first second : String)
  | returnTypeMismatch (function expected actual : String)
  | nonConstantExpression (text : String)
  | nestedDeclaration (name : String)
  | parameterRedeclared (function name : String)
  | duplicateFunction (name : String)
  | nestingTooDeep (limit : Nat)
  | internal (fault : Fault) (context : String)
deriving DecidableEq, Repr, Inhabited

/-- The words of a cause. -/
def Cause.message : Cause → String
  | unknownIdentifier name => "unknown identifier '" ++ name ++ "'"
  | argumentTypeMismatch function position argument expected actual =>
    "argument " ++ toString position ++ " ('" ++ argument ++ "') of '" ++ function ++
      "' expects '" ++ expected ++ "', got '" ++ actual ++ "'"
  | argumentCountMismatch function expected actual =>
    "'" ++ function ++ "' takes " ++ toString expected ++ " argument(s) but " ++
      toString actual ++ " were supplied"
  | pairTypeMismatch first second =>
    "pair elements must have the same type, got '" ++ first ++ "' and '" ++ second ++ "'"
  | returnTypeMismatch function expected actual =>
    "'" ++ function ++ "' returns '" ++ expected ++ "' but the value has type '" ++ actual ++ "'"
  | nonConstantExpression text => "expression '" ++ text ++ "' is not a constant"
  | nestedDeclaration name =>
    "function '" ++ name ++ "' cannot be declared inside another function"
  | parameterRedeclared function name =>
    "argument '" ++ name ++ "' of '" ++ function ++ "' is declared twice"
  | duplicateFunction name => "function '" ++ name ++ "' is already defined in this module"
  | nestingTooDeep limit => "expression nesting exceeds the limit of " ++ toString limit
  | internal fault context =>
    "internal compiler error: " ++ fault.message ++ " (while compiling '" ++ context ++ "')"

/-- A failure and where it happened. -/
structure CompileError where
  cause : Cause
  span : Span
deriving DecidableEq, Repr, Inhabited

namespace CompileError

/-- The full text of an error. -/
def message (e : CompileError) : String := "at " ++ e.span.render ++ ": " ++ e.cause.message

instance : ToString CompileError := ⟨message⟩

/-- Whether the compiler itself is at fault. -/
def isInternal (e : CompileError) : Bool :=
  match e.cause with
  | .internal _ _ => true
  | _ => false

end CompileError

/-- Refuses a piece of source that lies deeper than the limit. -/
def ensureDepth (limit depth : Nat) (span : Span) : Except CompileError Unit :=
  if limit < depth then .error ⟨.nestingTooDeep limit, span⟩ else .ok ()

end BlockCompiler

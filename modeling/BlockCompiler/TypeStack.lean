import BlockCompiler.Error

/-!
# The stack of operand types

While the code of a statement is written, the types of the values that it will have pushed are kept
on a `TypeStack`.  Taking a type from an empty stack, and leaving one where none may be, are faults.
-/

namespace BlockCompiler

/-- The types of operands, the top first. -/
structure TypeStack where
  types : List Ty := []
deriving DecidableEq, Repr, Inhabited

namespace TypeStack

/-- Puts a type on top. -/
def push (s : TypeStack) (t : Ty) : TypeStack := ⟨t :: s.types⟩

/-- The type on top. -/
def peek? (s : TypeStack) : Option Ty := s.types.head?

/-- The number of types. -/
def size (s : TypeStack) : Nat := s.types.length

/-- Whether there are no types. -/
def isEmpty (s : TypeStack) : Bool := s.types.isEmpty

/-- Takes the type on top. -/
def pop (s : TypeStack) (context : String) (span : Span) : Except CompileError (Ty × TypeStack) :=
  match s.types with
  | [] => .error ⟨.internal .stackUnderflow context, span⟩
  | t :: rest => .ok (t, ⟨rest⟩)

/-- Checks that no type is left. -/
def ensureEmpty (s : TypeStack) (context : String) (span : Span) : Except CompileError Unit :=
  if s.isEmpty then .ok ()
  else .error ⟨.internal (.stackNotEmpty s.types.reverse) context, span⟩

end TypeStack

end BlockCompiler

import Std.Data.TreeMap
import BlockCompiler.Attempt

/-!
# Argument slots

A `Scope` gives the arguments of a function their slots, in order and from zero on.  Two arguments of
one name are refused, and so is one that has no slot left: slots are words.
-/

namespace BlockCompiler

/-- An argument and its slot. -/
structure LocalVar where
  name : String
  ty : Ty
  slot : UInt16
deriving DecidableEq, Repr, Inhabited

/-- The arguments of a function in the order of their slots, and the same by name. -/
structure Scope where
  vars : Array LocalVar := #[]
  byName : Std.TreeMap String LocalVar := {}

namespace Scope

/-- The scope without arguments. -/
def empty : Scope := {}

instance : EmptyCollection Scope := ⟨empty⟩
instance : Inhabited Scope := ⟨empty⟩

/-- The number of arguments. -/
def size (s : Scope) : Nat := s.vars.size

/-- Whether there are no arguments. -/
def isEmpty (s : Scope) : Bool := s.vars.isEmpty

/-- The argument with a name. -/
def get? (s : Scope) (name : String) : Option LocalVar := s.byName[name]?

/-- The arguments in the order of their slots. -/
def toList (s : Scope) : List LocalVar := s.vars.toList

/-- The number of slots as a word. -/
def maxLocals (s : Scope) : UInt16 := UInt16.ofNat s.size

/-- The number of slots that a word can tell apart. -/
def slotLimit : Nat := 65536

/-- Appends an argument in the next slot. -/
def push (s : Scope) (name : String) (ty : Ty) : Scope :=
  let v : LocalVar := ⟨name, ty, UInt16.ofNat s.size⟩
  { vars := s.vars.push v, byName := s.byName.insert name v }

/-- Gives an argument of `function` the next slot and returns it. -/
def declare (name : String) (ty : Ty) (function : String) (span : Span) :
    Attempt Scope UInt16 := fun s =>
  if s.byName.contains name then (.error ⟨.parameterRedeclared function name, span⟩, s)
  else if s.size < slotLimit then (.ok (UInt16.ofNat s.size), s.push name ty)
  else (.error ⟨.internal .tooManySlots function, span⟩, s)

/-! ## What declaring does -/

@[simp] theorem get?_empty (name : String) : empty.get? name = none := by
  simp [get?, empty]

@[simp] theorem size_push (s : Scope) (name : String) (ty : Ty) :
    (s.push name ty).size = s.size + 1 := by
  simp [push, size]

theorem get?_push (s : Scope) (name : String) (ty : Ty) (name' : String) :
    (s.push name ty).get? name' =
      if name = name' then some ⟨name, ty, UInt16.ofNat s.size⟩ else s.get? name' := by
  simp [push, get?, Std.TreeMap.getElem?_insert]

end Scope

end BlockCompiler

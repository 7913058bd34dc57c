/-!
# Types

The types of values: five simple ones, two pairs, and functions.  A type is written in two ways.
`Ty.render` is for people and stands in error messages.  `Ty.descriptor` is for machines: one letter
for every type but a function, and for a function an `F`, the descriptors of its parameters in
parentheses, and the descriptor of its result.  Descriptors are written one after the other with
nothing between them.

Function types nest in lists, so the operations on types come in pairs, one for a type and one for a
list of types.
-/

namespace BlockCompiler

/-- The type of a value. -/
inductive Ty where
  | int
  | real
  | bool
  | string
  | unit
  | intPair
  | realPair
  | fn (params : List Ty) (result : Ty)
deriving Repr, Inhabited

namespace Ty

/-! ## Equality -/

mutual

/-- Whether two types are the same. -/
def beq : Ty → Ty → Bool
  | int, int => true
  | real, real => true
  | bool, bool => true
  | string, string => true
  | unit, unit => true
  | intPair, intPair => true
  | realPair, realPair => true
  | fn params result, fn params' result' => beqAll params params' && beq result result'
  | _, _ => false
termination_by structural t => t

/-- Whether two lists of types are the same. -/
def beqAll : List Ty → List Ty → Bool
  | [], [] => true
  | t :: ts, u :: us => beq t u && beqAll ts us
  | _, _ => false
termination_by structural ts => ts

end

mutual

theorem beq_iff : ∀ t u : Ty, beq t u = true ↔ t = u
  | fn params result, u => by
    cases u <;> simp [beq, beqAll_iff params, beq_iff result]
  | int, u => by cases u <;> simp [beq]
  | real, u => by cases u <;> simp [beq]
  | bool, u => by cases u <;> simp [beq]
  | string, u => by cases u <;> simp [beq]
  | unit, u => by cases u <;> simp [beq]
  | intPair, u => by cases u <;> simp [beq]
  | realPair, u => by cases u <;> simp [beq]

theorem beqAll_iff : ∀ ts us : List Ty, beqAll ts us = true ↔ ts = us
  | [], us => by cases us <;> simp [beqAll]
  | t :: ts, us => by cases us <;> simp [beqAll, beq_iff t, beqAll_iff ts]

end

instance : DecidableEq Ty := fun t u => decidable_of_iff _ (beq_iff t u)

/-! ## Written forms -/

mutual

/-- The form of a type in error messages. -/
def render : Ty → String
  | int => "Int"
  | real => "Real"
  | bool => "Bool"
  | string => "String"
  | unit => "Unit"
  | intPair => "IntPoint"
  | realPair => "RealPoint"
  | fn params result => "(" ++ ", ".intercalate (renderAll params) ++ ") -> " ++ render result
termination_by structural t => t

/-- The forms of the types of a list. -/
def renderAll : List Ty → List String
  | [] => []
  | t :: ts => render t :: renderAll ts
termination_by structural ts => ts

end

instance : ToString Ty := ⟨render⟩

mutual

/-- The characters of the machine form of a type. -/
def descriptorChars : Ty → List Char
  | int => ['I']
  | real => ['R']
  | bool => ['Z']
  | string => ['S']
  | unit => ['V']
  | intPair => ['P']
  | realPair => ['Q']
  | fn params result => 'F' :: '(' :: (descriptorCharsAll params ++ ')' :: descriptorChars result)
termination_by structural t => t

/-- The characters of the machine forms of the types of a list, one form after the other. -/
def descriptorCharsAll : List Ty → List Char
  | [] => []
  | t :: ts => descriptorChars t ++ descriptorCharsAll ts
termination_by structural ts => ts

end

/-- The characters of the machine form of a parameter list and a result. -/
def methodChars (params : List Ty) (result : Ty) : List Char :=
  '(' :: (descriptorCharsAll params ++ ')' :: descriptorChars result)

/-- The machine form of a type. -/
def descriptor (t : Ty) : String := String.ofList t.descriptorChars

/-- The machine form of a parameter list and a result. -/
def methodDescriptor (params : List Ty) (result : Ty) : String :=
  String.ofList (methodChars params result)

/-! ## Acceptance -/

/-- Whether this is the type of the value that carries nothing. -/
def isUnit (t : Ty) : Bool := t == unit

/-- Whether a place of type `t` takes a value of any type by throwing it away. -/
def acceptsDiscarding (t : Ty) : Bool := t.isUnit

/-- Whether a place of type `t` takes a value of type `actual`. -/
def acceptsAssign (t actual : Ty) : Bool := t == actual || t.acceptsDiscarding

end Ty

end BlockCompiler

import BlockCompiler.Hash.Xxh64
import BlockCompiler.Ty

/-!
# Signatures and function identities

A `Signature` is all that a caller needs to know of a function: its name, its parameters, the type
of its result, the module that owns it, and whether it is pure.  A `FunctionHash` identifies the
function in code: it digests the owner, the name and the descriptor, so it is the same in every run.
-/

namespace BlockCompiler

/-! ## Identities -/

/-- The identity of a function. -/
structure FunctionHash where
  value : UInt64
deriving DecidableEq, Repr, Inhabited

namespace FunctionHash

/-- The multiplier between the parts of an identity. -/
def separator : UInt64 := 0x4bc94d6bd06053ad

/-- The salt of the owner's digest. -/
def ownerSalt : UInt64 := 0x2fac10b63a6cc57c

/-- The salt of the name's digest. -/
def nameSalt : UInt64 := 0x5ea77ffbcdf5f302

/-- The identity of the function with this owner, name and descriptor. -/
def ofParts (owner name descriptor : String) : FunctionHash :=
  let h := ownerSalt ^^^ Xxh64.ofString owner
  let h := h * separator + (nameSalt ^^^ Xxh64.ofString name)
  ⟨h * separator + Xxh64.ofString descriptor⟩

/-- The zero identity belongs to no function. -/
def isEmpty (h : FunctionHash) : Bool := h.value == 0

/-- The lowest `n` hexadecimal digits of a number, in lower case. -/
def hexDigits : Nat → Nat → List Char
  | 0, _ => []
  | n + 1, v => hexDigits n (v / 16) ++ [Nat.digitChar (v % 16)]

/-- An identity is written in hexadecimal, with all its sixteen digits. -/
def render (h : FunctionHash) : String := "0x" ++ String.ofList (hexDigits 16 h.value.toNat)

instance : ToString FunctionHash := ⟨render⟩

end FunctionHash

/-! ## Signatures -/

/-- A parameter of a function. -/
structure Param where
  name : String
  ty : Ty
deriving DecidableEq, Repr, Inhabited

/-- What callers know of a function. -/
structure Signature where
  name : String
  params : List Param
  result : Ty
  owner : String
  isPure : Bool := false
deriving DecidableEq, Repr, Inhabited

namespace Signature

/-- The number of parameters. -/
def arity (s : Signature) : Nat := s.params.length

/-- The types of the parameters, in order. -/
def paramTypes (s : Signature) : List Ty := s.params.map Param.ty

/-- The type of the function as a value. -/
def toTy (s : Signature) : Ty := .fn s.paramTypes s.result

/-- The machine form of the function's type. -/
def descriptor (s : Signature) : String := Ty.methodDescriptor s.paramTypes s.result

/-- The identity of the function. -/
def hash (s : Signature) : FunctionHash := .ofParts s.owner s.name s.descriptor

end Signature

end BlockCompiler

import BlockCompiler.Binary64
import BlockCompiler.Signature

/-!
# Constants

What code refers to by index: integers, reals, bytes of text, functions that are called, and
functions that are passed as values.

Two constants are the same when their canonical forms are equal.  Only reals have a canonical form
other than themselves: the two zeros are the same, and so are all patterns that are not numbers.
-/

namespace BlockCompiler

/-- A function as a value: what it calls, the name of that, and its type. -/
structure FunctionValue where
  target : FunctionHash
  name : String
  ty : Ty
deriving DecidableEq, Repr, Inhabited

/-- The function value over a signature. -/
def Signature.toValue (s : Signature) : FunctionValue := ⟨s.hash, s.name, s.toTy⟩

/-- A constant. -/
inductive Constant where
  | int (value : Int64)
  | real (value : Binary64)
  | string (bytes : List UInt8)
  | function (target : FunctionHash)
  | bound (value : FunctionValue)
deriving DecidableEq, Repr, Inhabited

namespace Constant

/-- The text constant with the UTF-8 bytes of a string. -/
def ofString (s : String) : Constant := string s.toUTF8.data.toList

/-- The representative of a constant among those that are the same. -/
def canonical : Constant → Constant
  | real x => real x.canonical
  | c => c

@[simp] theorem canonical_canonical (c : Constant) : c.canonical.canonical = c.canonical := by
  cases c <;> simp [canonical]

/-- Whether two constants are the same. -/
def Same (c d : Constant) : Prop := c.canonical = d.canonical

instance : DecidableRel Same := fun c d => inferInstanceAs (Decidable (c.canonical = d.canonical))

@[refl] theorem Same.refl (c : Constant) : Same c c := rfl

@[symm] theorem Same.symm {c d : Constant} (h : Same c d) : Same d c := Eq.symm h

theorem Same.trans {c d e : Constant} (h : Same c d) (h' : Same d e) : Same c e :=
  Eq.trans h h'

/-- A word that is equal for constants that are the same. -/
def fingerprint (c : Constant) : UInt64 :=
  match c.canonical with
  | int value => value.toUInt64
  | real value => value.bits
  | string bytes => Xxh64.digest 0 bytes
  | function target => target.value
  | bound value => value.target.value

theorem Same.fingerprint_eq {c d : Constant} (h : Same c d) : c.fingerprint = d.fingerprint := by
  unfold fingerprint
  rw [show c.canonical = d.canonical from h]

end Constant

end BlockCompiler

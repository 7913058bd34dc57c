import BlockCompiler.Ty

/-!
# Operation codes

The instructions of the stack machine.  Each is one byte with at most three operand bytes after it.
Loads push a value, stores and returns pop one, and a call takes its arguments and leaves the result
of its callee, if there is one.

Loads, stores and returns come in four variants, one per `ValueKind`, so that code can be checked
without inferring types.
-/

namespace BlockCompiler

/-- An operation code. -/
inductive OpCode where
  /-- Pushes a constant; one byte of index. -/
  | constant
  /-- Pushes a constant; two bytes of index. -/
  | constantWide
  | pushTrue
  | pushFalse
  | pushUnit
  /-- Drops the top of the stack. -/
  | pop
  /-- Pushes the top of the stack again. -/
  | dup
  | loadInt
  | loadReal
  | loadBool
  | loadRef
  | storeInt
  | storeReal
  | storeBool
  | storeRef
  /-- Pushes a new pair; one byte of kind. -/
  | newPair
  /-- Fills the pair that lies twice below two values, and leaves it once; one byte of kind. -/
  | initPair
  /-- Calls a function; two bytes of index and one byte of argument count. -/
  | call
  /-- Pushes a function value; two bytes of index. -/
  | bindFunction
  | returnInt
  | returnReal
  | returnBool
  | returnRef
deriving DecidableEq, Repr, Inhabited

namespace OpCode

/-- All operation codes, in the order of their bytes. -/
def all : List OpCode :=
  [constant, constantWide, pushTrue, pushFalse, pushUnit, pop, dup, loadInt, loadReal, loadBool,
    loadRef, storeInt, storeReal, storeBool, storeRef, newPair, initPair, call, bindFunction,
    returnInt, returnReal, returnBool, returnRef]

/-- The byte of an operation code. -/
def toByte : OpCode → UInt8
  | constant => 0
  | constantWide => 1
  | pushTrue => 2
  | pushFalse => 3
  | pushUnit => 4
  | pop => 5
  | dup => 6
  | loadInt => 7
  | loadReal => 8
  | loadBool => 9
  | loadRef => 10
  | storeInt => 11
  | storeReal => 12
  | storeBool => 13
  | storeRef => 14
  | newPair => 15
  | initPair => 16
  | call => 17
  | bindFunction => 18
  | returnInt => 19
  | returnReal => 20
  | returnBool => 21
  | returnRef => 22

/-- The operation code of a byte, if there is one. -/
def ofByte? (b : UInt8) : Option OpCode := all[b.toNat]?

/-- Reading the byte of an operation code gives it back. -/
@[simp] theorem ofByte?_toByte (op : OpCode) : ofByte? op.toByte = some op := by
  cases op <;> rfl

/-- How many operand bytes follow. -/
def operandSize : OpCode → Nat
  | constant | newPair | initPair => 1
  | constantWide | loadInt | loadReal | loadBool | loadRef | storeInt | storeReal | storeBool
  | storeRef | bindFunction => 2
  | call => 3
  | pushTrue | pushFalse | pushUnit | pop | dup | returnInt | returnReal | returnBool
  | returnRef => 0

/-- How much the stack grows.  The growth of a call depends on its operands and its callee. -/
def effect? : OpCode → Option Int
  | constant | constantWide | pushTrue | pushFalse | pushUnit | dup | loadInt | loadReal | loadBool
  | loadRef | newPair | bindFunction => some 1
  | pop | storeInt | storeReal | storeBool | storeRef | returnInt | returnReal | returnBool
  | returnRef => some (-1)
  | initPair => some (-3)
  | call => none

/-- Whether the instruction ends the function. -/
def isReturn : OpCode → Bool
  | returnInt | returnReal | returnBool | returnRef => true
  | _ => false

/-- The name in listings. -/
def name : OpCode → String
  | constant => "CONSTANT"
  | constantWide => "CONSTANT_WIDE"
  | pushTrue => "PUSH_TRUE"
  | pushFalse => "PUSH_FALSE"
  | pushUnit => "PUSH_UNIT"
  | pop => "POP"
  | dup => "DUP"
  | loadInt => "LOAD_INT"
  | loadReal => "LOAD_REAL"
  | loadBool => "LOAD_BOOL"
  | loadRef => "LOAD_REF"
  | storeInt => "STORE_INT"
  | storeReal => "STORE_REAL"
  | storeBool => "STORE_BOOL"
  | storeRef => "STORE_REF"
  | newPair => "NEW_PAIR"
  | initPair => "INIT_PAIR"
  | call => "CALL"
  | bindFunction => "BIND_FUNCTION"
  | returnInt => "RETURN_INT"
  | returnReal => "RETURN_REAL"
  | returnBool => "RETURN_BOOL"
  | returnRef => "RETURN_REF"

end OpCode

/-- How the machine represents a value. -/
inductive ValueKind where
  | int
  | real
  | bool
  | ref
deriving DecidableEq, Repr, Inhabited

namespace ValueKind

/-- The representation of the values of a type: numbers and truth values are held directly, all
others by reference. -/
def ofTy : Ty → ValueKind
  | .int => int
  | .real => real
  | .bool => bool
  | .string | .unit | .intPair | .realPair | .fn _ _ => ref

/-- The instruction that loads such a value. -/
def loadOp : ValueKind → OpCode
  | int => .loadInt
  | real => .loadReal
  | bool => .loadBool
  | ref => .loadRef

/-- The instruction that stores such a value. -/
def storeOp : ValueKind → OpCode
  | int => .storeInt
  | real => .storeReal
  | bool => .storeBool
  | ref => .storeRef

/-- The instruction that returns such a value. -/
def returnOp : ValueKind → OpCode
  | int => .returnInt
  | real => .returnReal
  | bool => .returnBool
  | ref => .returnRef

end ValueKind

/-- The element kind of a pair. -/
inductive PairKind where
  | int
  | real
deriving DecidableEq, Repr, Inhabited

namespace PairKind

/-- The operand byte of a kind. -/
def toByte : PairKind → UInt8
  | int => 0
  | real => 1

/-- The kind of the pairs of a type. -/
def ofTy : Ty → PairKind
  | .intPair => int
  | _ => real

end PairKind

end BlockCompiler

import BlockCompiler.Chunk
import BlockCompiler.Pool

/-!
# Emission of code

An `Emitter` writes the code of one function.  It remembers the current line, which it gives to every
byte, and it counts how deep the operand stack is after the instructions written so far and how deep
it ever was.  The latter becomes the stack size of the frame.

Instructions that refer to a constant also add it to a pool, which all functions of a module share.
Such operations take the pool and return it.  An index goes into one byte while it fits there, and
else into two, of which a larger index keeps the lower sixteen bits.
-/

namespace BlockCompiler

/-- The code written so far and the state of the operand stack after it. -/
structure Emitter where
  chunk : Chunk := {}
  line : Nat := 0
  /-- The depth of the operand stack.  A signed counter of 32 bits shows the same depth as long as its
  absolute value stays below `2 ^ 31`. -/
  depth : Int := 0
  /-- The greatest depth so far, under the same bound. -/
  peak : Int := 0
deriving Repr, Inhabited

namespace Emitter

/-- Makes a line the current one. -/
def setLine (e : Emitter) (line : Nat) : Emitter := { e with line }

/-- The depth of the operand stack; a stack is never less than empty. -/
def stackDepth (e : Emitter) : Nat := e.depth.toNat

/-- The offset of the next instruction. -/
def offset (e : Emitter) : Nat := e.chunk.size

/-- Writes one instruction with its operand bytes and accounts for its effect on the stack. -/
def write (e : Emitter) (op : OpCode) (operand : List UInt8) (effect : Int) : Emitter :=
  { chunk := e.chunk.writeBytes (op.toByte :: operand) e.line
    line := e.line
    depth := e.depth + effect
    peak := max e.peak (e.depth + effect) }

/-! ## Instructions without constants -/

/-- Writes an instruction with operand bytes and the effect that its code has by itself. -/
def emitWith (e : Emitter) (op : OpCode) (operand : List UInt8) : Emitter :=
  e.write op operand (op.effect?.getD 0)

/-- Writes an instruction without operand bytes. -/
def emit (e : Emitter) (op : OpCode) : Emitter := e.emitWith op []

/-- Pushes a truth value. -/
def bool (e : Emitter) (value : Bool) : Emitter := e.emit (if value then .pushTrue else .pushFalse)

/-- Pushes the value that carries nothing. -/
def unit (e : Emitter) : Emitter := e.emit .pushUnit

/-- Drops the top of the stack. -/
def pop (e : Emitter) : Emitter := e.emit .pop

/-- Pushes the top of the stack again. -/
def dup (e : Emitter) : Emitter := e.emit .dup

/-- Loads a slot. -/
def load (e : Emitter) (kind : ValueKind) (slot : UInt16) : Emitter :=
  e.emitWith kind.loadOp (bigEndian slot)

/-- Stores into a slot. -/
def store (e : Emitter) (kind : ValueKind) (slot : UInt16) : Emitter :=
  e.emitWith kind.storeOp (bigEndian slot)

/-- Pushes a new pair. -/
def newPair (e : Emitter) (kind : PairKind) : Emitter := e.emitWith .newPair [kind.toByte]

/-- Fills a pair from the two values above it. -/
def initPair (e : Emitter) (kind : PairKind) : Emitter := e.emitWith .initPair [kind.toByte]

/-- Returns the top of the stack. -/
def ret (e : Emitter) (kind : ValueKind) : Emitter := e.emit kind.returnOp

/-! ## Instructions with constants -/

/-- Pushes the constant with an index. -/
def constantAt (e : Emitter) (index : Nat) : Emitter :=
  if index < 256 then e.emitWith .constant [UInt8.ofNat index]
  else e.emitWith .constantWide (bigEndian (UInt16.ofNat index))

/-- Calls the function whose identity has an index.  A callee that returns a value leaves it in place
of the arguments. -/
def callAt (e : Emitter) (index : Nat) (argCount : UInt8) (returnsValue : Bool) : Emitter :=
  e.write .call (bigEndian (UInt16.ofNat index) ++ [argCount])
    ((if returnsValue then 1 else 0) - (argCount.toNat : Int))

/-- Pushes the function value with an index. -/
def bindAt (e : Emitter) (index : Nat) : Emitter :=
  e.emitWith .bindFunction (bigEndian (UInt16.ofNat index))

/-- Pushes a constant. -/
def constant (e : Emitter) (c : Constant) (p : Pool) : Emitter × Pool :=
  let (p, index) := p.add c
  (e.constantAt index, p)

/-- Calls a function. -/
def call (e : Emitter) (target : FunctionHash) (argCount : UInt8) (returnsValue : Bool)
    (p : Pool) : Emitter × Pool :=
  let (p, index) := p.add (.function target)
  (e.callAt index argCount returnsValue, p)

/-- Pushes a function value. -/
def bind (e : Emitter) (value : FunctionValue) (p : Pool) : Emitter × Pool :=
  let (p, index) := p.add (.bound value)
  (e.bindAt index, p)

/-! ## Labels and records -/

/-- Puts a label at the end of the code. -/
def label (e : Emitter) : Emitter × Nat :=
  let (chunk, index) := e.chunk.addLabel
  ({ e with chunk }, index)

/-- Records a parameter. -/
def param (e : Emitter) (record : ParamRecord) : Emitter :=
  { e with chunk := e.chunk.addParam record }

/-- Records a range. -/
def range (e : Emitter) (range : LocalRange) : Emitter :=
  { e with chunk := e.chunk.addRange range }

/-! ## The finished chunk -/

/-- A depth as the size of a stack; depths that no word can hold count as the largest one. -/
def stackSize (peak : Int) : UInt16 :=
  if peak < 65536 then UInt16.ofNat peak.toNat else 65535

/-- The chunk with the size of its frame. -/
def finish (e : Emitter) (maxLocals : UInt16) : Chunk :=
  e.chunk.setFrame (stackSize e.peak) maxLocals

end Emitter

end BlockCompiler

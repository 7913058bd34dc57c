import BlockCompiler.OpCode

/-!
# Chunks of bytecode

A `Chunk` is the code of one function with what describes it: the source line of every byte, the
labels, the parameters, the ranges in which arguments live, and the size of the frame.

Code is written at the end, one instruction with its operand bytes at a time, and every byte gets
the same line.  Sixteen-bit operands are written with the high byte first.
-/

namespace BlockCompiler

/-- The name and the descriptor of a parameter. -/
structure ParamRecord where
  name : String
  descriptor : String
deriving DecidableEq, Repr, Inhabited

/-- Where the value of a named slot is valid: from offset `start` on and below `stop`. -/
structure LocalRange where
  name : String
  descriptor : String
  slot : UInt16
  start : Nat
  stop : Nat
deriving DecidableEq, Repr, Inhabited

/-- The code of one function. -/
structure Chunk where
  code : Array UInt8 := #[]
  lines : Array Nat := #[]
  labels : Array Nat := #[]
  params : Array ParamRecord := #[]
  ranges : Array LocalRange := #[]
  maxStack : UInt16 := 0
  maxLocals : UInt16 := 0
deriving DecidableEq, Repr, Inhabited

/-- The two bytes of a sixteen-bit operand. -/
def bigEndian (w : UInt16) : List UInt8 := [(w >>> 8).toUInt8, w.toUInt8]

namespace Chunk

/-! ## Writing -/

/-- Appends bytes, all on one line. -/
def writeBytes (c : Chunk) (bytes : List UInt8) (line : Nat) : Chunk :=
  { c with code := c.code ++ bytes, lines := c.lines ++ List.replicate bytes.length line }

/-- Appends one byte. -/
def writeByte (c : Chunk) (byte : UInt8) (line : Nat) : Chunk := c.writeBytes [byte] line

/-- Appends a sixteen-bit operand. -/
def writeWord (c : Chunk) (word : UInt16) (line : Nat) : Chunk := c.writeBytes (bigEndian word) line

/-- Appends the byte of an operation code. -/
def writeOp (c : Chunk) (op : OpCode) (line : Nat) : Chunk := c.writeByte op.toByte line

/-- Puts a label at the end of the code and returns its number. -/
def addLabel (c : Chunk) : Chunk × Nat :=
  ({ c with labels := c.labels.push c.code.size }, c.labels.size)

/-- Records a parameter. -/
def addParam (c : Chunk) (record : ParamRecord) : Chunk := { c with params := c.params.push record }

/-- Records a range. -/
def addRange (c : Chunk) (range : LocalRange) : Chunk := { c with ranges := c.ranges.push range }

/-- Sets the size of the frame. -/
def setFrame (c : Chunk) (maxStack maxLocals : UInt16) : Chunk := { c with maxStack, maxLocals }

/-! ## Reading -/

/-- The number of code bytes, which is also the offset of the next one. -/
def size (c : Chunk) : Nat := c.code.size

/-- Whether there is no code. -/
def isEmpty (c : Chunk) : Bool := c.code.isEmpty

/-- The offset of a label. -/
def labelOffset? (c : Chunk) (label : Nat) : Option Nat := c.labels[label]?

/-- The line of the byte at an offset. -/
def lineAt? (c : Chunk) (offset : Nat) : Option Nat := c.lines[offset]?

/-- The byte at an offset. -/
def readByte? (c : Chunk) (offset : Nat) : Option UInt8 := c.code[offset]?

/-- The sixteen-bit operand at an offset, if both its bytes are there. -/
def readWord? (c : Chunk) (offset : Nat) : Option UInt16 :=
  match c.code[offset]?, c.code[offset + 1]? with
  | some high, some low => some (high.toUInt16 <<< 8 ||| low.toUInt16)
  | _, _ => none

/-- The operation code at an offset. -/
def readOp? (c : Chunk) (offset : Nat) : Option OpCode := c.code[offset]?.bind OpCode.ofByte?

/-! ## What writing does -/

@[simp] theorem code_writeBytes (c : Chunk) (bytes : List UInt8) (line : Nat) :
    (c.writeBytes bytes line).code.toList = c.code.toList ++ bytes := by
  simp [writeBytes]

@[simp] theorem lines_writeBytes (c : Chunk) (bytes : List UInt8) (line : Nat) :
    (c.writeBytes bytes line).lines.toList =
      c.lines.toList ++ List.replicate bytes.length line := by
  simp [writeBytes]

@[simp] theorem size_writeBytes (c : Chunk) (bytes : List UInt8) (line : Nat) :
    (c.writeBytes bytes line).size = c.size + bytes.length := by
  rw [size, size, ← Array.length_toList, code_writeBytes, List.length_append, Array.length_toList]

end Chunk

end BlockCompiler

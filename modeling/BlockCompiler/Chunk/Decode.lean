import BlockCompiler.Chunk

/-!
# Decoding

Code is read from its start.  At the byte of an operation code the instruction is listed and its
operand bytes are passed over, even past the end of the code.  Any other byte is passed over alone.
-/

namespace BlockCompiler

/-- The instructions of some bytes that begin at an offset, after passing over the first `skip`. -/
def decodeFrom (offset : Nat) : (skip : Nat) → List UInt8 → List (Nat × OpCode)
  | _, [] => []
  | skip + 1, _ :: rest => decodeFrom (offset + 1) skip rest
  | 0, b :: rest =>
    match OpCode.ofByte? b with
    | some op => (offset, op) :: decodeFrom (offset + 1) op.operandSize rest
    | none => decodeFrom (offset + 1) 0 rest

/-! ## Reading what was written -/

/-- Bytes to pass over leave the rest of the code. -/
theorem decodeFrom_skip (offset : Nat) (operand rest : List UInt8) :
    decodeFrom offset operand.length (operand ++ rest) =
      decodeFrom (offset + operand.length) 0 rest := by
  induction operand generalizing offset with
  | nil => rfl
  | cons b operand ih =>
    rw [List.length_cons, List.cons_append, decodeFrom, ih]
    congr 1
    omega

/-- An instruction with all its operand bytes is listed, and reading goes on after it. -/
theorem decodeFrom_instruction (offset : Nat) (op : OpCode) (operand rest : List UInt8)
    (h : operand.length = op.operandSize) :
    decodeFrom offset 0 (op.toByte :: operand ++ rest) =
      (offset, op) :: decodeFrom (offset + 1 + op.operandSize) 0 rest := by
  rw [List.cons_append, decodeFrom, OpCode.ofByte?_toByte]
  simp only [← h, decodeFrom_skip]

namespace Chunk

/-- The instructions of a chunk with their offsets. -/
def instructions (c : Chunk) : List (Nat × OpCode) := decodeFrom 0 0 c.code.toList

/-- The operation codes of a chunk, in order. -/
def opcodes (c : Chunk) : List OpCode := c.instructions.map Prod.snd

end Chunk

end BlockCompiler

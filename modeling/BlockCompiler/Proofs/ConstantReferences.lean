import BlockCompiler.Proofs.Emission

/-!
# References to constants

Three kinds of instructions refer to a constant: loads, calls, and those that push a function value.
The index in the instruction has eight or sixteen bits, while the numbers of a pool have no such
bound.  This file settles when the index that was written leads back to the constant.

`reference_resolves_iff` is the result.  The index holds the lowest sixteen bits of the constant's
number.  It leads to the constant exactly when the number is below 65536, whatever is added to the
pool later; the pool holds a different constant under the index of any other.
-/

namespace BlockCompiler

/-- What an emitter is asked for when it writes an instruction that refers to a constant. -/
inductive Reference where
  | load (c : Constant)
  | call (target : FunctionHash) (argCount : UInt8) (returnsValue : Bool)
  | bind (value : FunctionValue)
deriving DecidableEq, Repr

namespace Reference

/-- The constant that is referred to. -/
def constant : Reference → Constant
  | load c => c
  | call target _ _ => .function target
  | bind value => .bound value

/-- Writes the instruction. -/
def emit (r : Reference) (e : Emitter) (p : Pool) : Emitter × Pool :=
  match r with
  | load c => e.constant c p
  | call target argCount returnsValue => e.call target argCount returnsValue p
  | bind value => e.bind value p

/-- The operation code for a constant with this number. -/
def op (r : Reference) (number : Nat) : OpCode :=
  match r with
  | load _ => if number < 256 then .constant else .constantWide
  | call _ _ _ => .call
  | bind _ => .bindFunction

private def instr : Reference → Instr
  | load c => .push c
  | call target argCount _ => .call target argCount
  | bind value => .bind value

private theorem constant?_instr (r : Reference) : r.instr.constant? = some r.constant := by
  cases r <;> rfl

private theorem op_instr (r : Reference) (p : Pool) : r.instr.op p = r.op (r.instr.index p) := by
  cases r <;> rfl

theorem snd_emit (r : Reference) (e : Emitter) (p : Pool) :
    (r.emit e p).2 = (p.add r.constant).1 := by
  cases r <;> rfl

/-- The instruction's bytes are appended to the code. -/
private theorem code_emit (r : Reference) (e : Emitter) (p : Pool) :
    (r.emit e p).1.chunk.code.toList =
      e.chunk.code.toList ++ r.instr.bytes (p.add r.constant).1 := by
  have hindex := Instr.index_add r.constant?_instr p
  cases r with
  | load c =>
    rw [emit, Emitter.constant_eq]
    exact Chunk.code_writeBytes _ _ _
  | call target argCount returnsValue =>
    simp only [instr, constant] at hindex
    simp only [emit, Emitter.call, Emitter.callAt, Emitter.write, Chunk.code_writeBytes, instr,
      Instr.bytes, Instr.op, Instr.operand, hindex, constant]
  | bind value =>
    rw [emit, Emitter.bind_eq]
    exact Chunk.code_writeBytes _ _ _

end Reference

/-- A reference that was written leads to its constant exactly if the number of the constant is below
65536, and goes on to do so, or not to do so, whatever is added to the pool later. -/
theorem reference_resolves_iff (cs : List Constant) (e : Emitter) (r : Reference) :
    let pool := Pool.empty.addAll cs
    let number := (pool.add r.constant).2
    let out := r.emit e pool
    out.1.chunk.readOp? e.offset = some (r.op number) ∧
      ∃ index, out.1.chunk.indexAt? e.offset (r.op number) = some index ∧
        ∀ later : List Constant,
          (∃ d, (out.2.addAll later).get? index = some d ∧ Constant.Same d r.constant) ↔
            number < 65536 := by
  intro pool number out
  have hconst := r.constant?_instr
  have hnumber : r.instr.index (pool.add r.constant).1 = number := Instr.index_add hconst pool
  have hop : r.instr.op (pool.add r.constant).1 = r.op number := by rw [r.op_instr, hnumber]
  have hcode : out.1.chunk.code.toList =
      e.chunk.code.toList ++ (r.instr.bytes (pool.add r.constant).1 ++ []) := by
    rw [List.append_nil]
    exact r.code_emit e pool
  have hoffset : e.chunk.code.toList.length = e.offset := by
    rw [Array.length_toList]
    rfl
  have hindex := Chunk.indexAt?_of_eq hcode hconst
  rw [hop, hnumber, hoffset] at hindex
  refine ⟨?_, number % 65536, hindex, fun later => ?_⟩
  · have hcode' : out.1.chunk.code.toList = e.chunk.code.toList ++
        ((r.op number).toByte :: r.instr.operand (pool.add r.constant).1) := by
      rw [hcode, Instr.bytes, hop, List.append_nil]
    have hbyte := Chunk.readByte?_of_eq hcode'
    rw [hoffset] at hbyte
    rw [Chunk.readOp?, ← Chunk.readByte?, hbyte, Option.bind_some, OpCode.ofByte?_toByte]
  -- The later pool has the constant under `number`, and nothing else the same as it.
  have hout : out.2 = (pool.add r.constant).1 := r.snd_emit e pool
  have hdistinct : (out.2.addAll later).Distinct := by
    rw [hout]
    exact ((Pool.distinct_addAll cs).add _).addAll later
  have hgrows : (pool.add r.constant).1.GrowsTo (out.2.addAll later) := by
    rw [hout]
    exact Pool.growsTo_addAll _ later
  obtain ⟨c, hc, hsame⟩ := Pool.same_of_find? (hgrows.find? (pool.find?_add r.constant))
  constructor
  · rintro ⟨d, hd, hd'⟩
    have heq : number % 65536 = number := hdistinct _ _ _ _ hd hc (hd'.trans hsame.symm)
    omega
  · intro hlt
    refine ⟨c, ?_, hsame⟩
    rw [Nat.mod_eq_of_lt hlt]
    exact hc

end BlockCompiler

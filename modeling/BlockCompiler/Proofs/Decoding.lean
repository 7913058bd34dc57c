import Mathlib.Algebra.GroupWithZero.Nat
import BlockCompiler.Proofs.Emission

/-!
# Decoding undoes emission

The emitter writes operation codes and operand bytes in several places, and the decoder gets by with the
number of operand bytes of each code.  This file says that they stay in step, whatever an emitter is asked
for, and in whatever order.

* `EmitterOp` is an operation of the emitter, and `EmitterOp.runAll` is a script of them.  A nested emitter
  works on the same pool in between.
* `EmitterOp.written` lists the instructions that a script asks for, each with the line that is current
  then.  No pool is needed for that.
* `Emitter.Writes` says what an emitter has after some instructions: `EmitterOp.writes_run` is the step
  and `EmitterOp.writes_runAll` the induction on scripts.
* `layout` places instructions one after another, and `decodeFrom_codeBytes` finds them there.

`decoding_undoes_emission` is the result.  How deep the operand stack gets plays no part in it.
-/

namespace BlockCompiler

/-! ## Scripts -/

/-- An operation of an emitter. -/
inductive EmitterOp where
  | int (v : Int64)
  | real (v : Binary64)
  | string (s : String)
  | bool (value : Bool)
  | unit
  | load (kind : ValueKind) (slot : UInt16)
  | store (kind : ValueKind) (slot : UInt16)
  | newPair (kind : PairKind)
  | initPair (kind : PairKind)
  | call (target : FunctionHash) (argCount : UInt8) (returnsValue : Bool)
  | bind (value : FunctionValue)
  | pop
  | dup
  | ret (kind : ValueKind)
  | setLine (line : Nat)
  | label
  | param (record : ParamRecord)
  | range (range : LocalRange)
  /-- Another emitter on the same pool, whose code goes elsewhere. -/
  | nested (ops : List EmitterOp)

namespace EmitterOp

mutual

/-- Carries out an operation. -/
def run : EmitterOp → Emitter × Pool → Emitter × Pool
  | int v, (e, p) => e.constant (.int v) p
  | real v, (e, p) => e.constant (.real v) p
  | string s, (e, p) => e.constant (.ofString s) p
  | bool value, (e, p) => (e.bool value, p)
  | unit, (e, p) => (e.unit, p)
  | load kind slot, (e, p) => (e.load kind slot, p)
  | store kind slot, (e, p) => (e.store kind slot, p)
  | newPair kind, (e, p) => (e.newPair kind, p)
  | initPair kind, (e, p) => (e.initPair kind, p)
  | call target argCount returnsValue, (e, p) => e.call target argCount returnsValue p
  | bind value, (e, p) => e.bind value p
  | pop, (e, p) => (e.pop, p)
  | dup, (e, p) => (e.dup, p)
  | ret kind, (e, p) => (e.ret kind, p)
  | setLine line, (e, p) => (e.setLine line, p)
  | label, (e, p) => (e.label.1, p)
  | param record, (e, p) => (e.param record, p)
  | range r, (e, p) => (e.range r, p)
  | nested ops, (e, p) => (e, (runAll ops ({}, p)).2)

/-- Carries out operations in order. -/
def runAll : List EmitterOp → Emitter × Pool → Emitter × Pool
  | [], s => s
  | op :: ops, s => runAll ops (run op s)

end

/-- The instruction that an operation writes, if it writes one. -/
def instr? : EmitterOp → Option Instr
  | int v => some (.push (.int v))
  | real v => some (.push (.real v))
  | string s => some (.push (.ofString s))
  | bool value => some (.bool value)
  | unit => some .unit
  | load kind slot => some (.load kind slot)
  | store kind slot => some (.store kind slot)
  | newPair kind => some (.newPair kind)
  | initPair kind => some (.initPair kind)
  | call target argCount _ => some (.call target argCount)
  | bind value => some (.bind value)
  | pop => some .pop
  | dup => some .dup
  | ret kind => some (.ret kind)
  | setLine _ | label | param _ | range _ | nested _ => none

/-- The current line after an operation. -/
def lineAfter (line : Nat) : EmitterOp → Nat
  | setLine line => line
  | _ => line

/-- The instructions that a script writes from a line on, each with the line that is current then. -/
def written (line : Nat) : List EmitterOp → List (Nat × Instr)
  | [] => []
  | op :: ops => (op.instr?.map (line, ·)).toList ++ written (op.lineAfter line) ops

end EmitterOp

/-! ## What is written -/

/-- The number of bytes of instructions. -/
def codeSize (p : Pool) (is : List Instr) : Nat := (is.map fun i => 1 + (i.op p).operandSize).sum

theorem Instr.length_bytes (i : Instr) (p : Pool) :
    (i.bytes p).length = 1 + (i.op p).operandSize := by
  rw [bytes, List.length_cons, length_operand, Nat.add_comm]

theorem length_codeBytes (p : Pool) (is : List Instr) : (codeBytes p is).length = codeSize p is := by
  induction is with
  | nil => rfl
  | cons i is ih =>
    rw [codeBytes_cons, List.length_append, i.length_bytes, ih]
    simp only [codeSize, List.map_cons, List.sum_cons]

/-- The lines of the bytes of instructions: all bytes of one have its line. -/
def codeLines (p : Pool) : List (Nat × Instr) → List Nat
  | [] => []
  | (line, i) :: is => List.replicate (1 + (i.op p).operandSize) line ++ codeLines p is

theorem codeLines_append (p : Pool) (is js : List (Nat × Instr)) :
    codeLines p (is ++ js) = codeLines p is ++ codeLines p js := by
  induction is with
  | nil => rfl
  | cons x is ih => rw [List.cons_append, codeLines, codeLines, ih, List.append_assoc]

theorem length_codeLines (p : Pool) (is : List (Nat × Instr)) :
    (codeLines p is).length = codeSize p (is.map Prod.snd) := by
  induction is with
  | nil => rfl
  | cons x is ih =>
    rw [codeLines, List.length_append, List.length_replicate, ih]
    simp only [codeSize, List.map_cons, List.sum_cons]

/-- A pool that grows does not change how many bytes an instruction has. -/
theorem codeLines_eq_of_growsTo {p q : Pool} {is : List (Nat × Instr)}
    (h : ∀ i ∈ is.map Prod.snd, i.Interned p) (hpq : p.GrowsTo q) : codeLines q is = codeLines p is := by
  induction is with
  | nil => rfl
  | cons x is ih =>
    obtain ⟨hop, -⟩ := Instr.op_operand_eq_of_growsTo (h x.2 List.mem_cons_self) hpq
    rw [codeLines, codeLines, hop, ih fun i hi => h i (List.mem_cons_of_mem _ hi)]

namespace Emitter

/-- From one state of an emitter and of its pool to another, these instructions were written, each on its
line. -/
structure Writes (is : List (Nat × Instr)) (s s' : Emitter × Pool) : Prop where
  code : s'.1.chunk.code.toList = s.1.chunk.code.toList ++ codeBytes s'.2 (is.map Prod.snd)
  lines : s'.1.chunk.lines.toList = s.1.chunk.lines.toList ++ codeLines s'.2 is
  interned : ∀ i ∈ is.map Prod.snd, i.Interned s'.2
  pool : s.2.GrowsTo s'.2

variable {is js : List (Nat × Instr)} {s s' s'' : Emitter × Pool}

/-- Neither code nor lines changed. -/
theorem writes_nil (hcode : s'.1.chunk.code = s.1.chunk.code)
    (hlines : s'.1.chunk.lines = s.1.chunk.lines) (hpool : s.2.GrowsTo s'.2) : Writes [] s s' := by
  refine ⟨?_, ?_, fun i hi => (nomatch hi), hpool⟩
  · simp [hcode]
  · simp [hlines, codeLines]

theorem writes_writeBytes {e e' : Emitter} {p q : Pool} {i : Instr}
    (hchunk : e'.chunk = e.chunk.writeBytes (i.bytes q) e.line) (hin : i.Interned q)
    (hpool : p.GrowsTo q) : Writes [(e.line, i)] (e, p) (e', q) := by
  refine ⟨?_, ?_, fun j hj => ?_, hpool⟩
  · simp [hchunk]
  · simp [hchunk, codeLines, i.length_bytes q]
  · obtain rfl := List.mem_singleton.1 hj
    exact hin

/-- A pool that grows keeps the numbers that were written, and with them the form of an instruction. -/
theorem Writes.trans (h : Writes is s s') (h' : Writes js s' s'') : Writes (is ++ js) s s'' := by
  have hbytes := codeBytes_eq_of_growsTo h.interned h'.pool
  have hlines := codeLines_eq_of_growsTo h.interned h'.pool
  refine ⟨?_, ?_, fun i hi => ?_, h.pool.trans h'.pool⟩
  · rw [h'.code, h.code, List.map_append, codeBytes_append, hbytes, List.append_assoc]
  · rw [h'.lines, h.lines, codeLines_append, hlines, List.append_assoc]
  · rw [List.map_append] at hi
    rcases List.mem_append.1 hi with hi | hi
    · exact (h.interned i hi).mono h'.pool
    · exact h'.interned i hi

end Emitter

namespace EmitterOp

open Emitter

/-- Only the operation that is there for it changes the current line. -/
theorem line_run (op : EmitterOp) (s : Emitter × Pool) : (op.run s).1.line = op.lineAfter s.1.line := by
  obtain ⟨e, p⟩ := s
  cases op with
  | int v | real v | string s =>
    rw [run, e.constant_eq p]
    rfl
  | _ => rfl

mutual

/-- An operation writes its instruction on the current line. -/
theorem writes_run : ∀ (op : EmitterOp) (s : Emitter × Pool),
    Writes (op.instr?.map (s.1.line, ·)).toList s (op.run s)
  | int v, (e, p) => by
    rw [run, e.constant_eq p]
    exact writes_writeBytes rfl (Instr.interned_add rfl p) (p.growsTo_add _)
  | real v, (e, p) => by
    rw [run, e.constant_eq p]
    exact writes_writeBytes rfl (Instr.interned_add rfl p) (p.growsTo_add _)
  | string s, (e, p) => by
    rw [run, e.constant_eq p]
    exact writes_writeBytes rfl (Instr.interned_add rfl p) (p.growsTo_add _)
  | call target argCount returnsValue, (e, p) => by
    have hindex : (Instr.call target argCount).index (p.add (.function target)).1 =
        (p.add (.function target)).2 := Instr.index_add rfl p
    have hbytes : (Instr.call target argCount).bytes (p.add (.function target)).1 =
        OpCode.call.toByte :: (bigEndian (UInt16.ofNat (p.add (.function target)).2) ++ [argCount]) := by
      simp only [Instr.bytes, Instr.op, Instr.operand, hindex]
    exact writes_writeBytes (congrArg (e.chunk.writeBytes · e.line) hbytes.symm)
      (Instr.interned_add rfl p) (p.growsTo_add _)
  | bind value, (e, p) => by
    rw [run, e.bind_eq p]
    exact writes_writeBytes rfl (Instr.interned_add rfl p) (p.growsTo_add _)
  | bool value, (e, p) => by
    rw [run, e.bool_eq p]
    exact writes_writeBytes rfl (Instr.interned_of_constant?_eq_none rfl p) (.refl p)
  | load kind slot, (e, p) => by
    rw [run, e.load_eq p]
    exact writes_writeBytes rfl (Instr.interned_of_constant?_eq_none rfl p) (.refl p)
  | unit, (e, p) | store kind slot, (e, p) | newPair kind, (e, p) | initPair kind, (e, p)
  | pop, (e, p) | dup, (e, p) | ret kind, (e, p) =>
    writes_writeBytes rfl (Instr.interned_of_constant?_eq_none rfl p) (.refl p)
  | setLine _, (e, p) | label, (e, p) | param _, (e, p) | range _, (e, p) =>
    writes_nil rfl rfl (.refl p)
  | nested ops, (e, p) => writes_nil rfl rfl (writes_runAll ops ({}, p)).pool

/-- A script writes its instructions in order. -/
theorem writes_runAll : ∀ (ops : List EmitterOp) (s : Emitter × Pool),
    Writes (written s.1.line ops) s (runAll ops s)
  | [], s => writes_nil rfl rfl (.refl s.2)
  | op :: ops, s => by
    have hrest := writes_runAll ops (op.run s)
    rw [line_run] at hrest
    exact (writes_run op s).trans hrest

end

end EmitterOp

/-! ## Places -/

/-- Instructions with the offsets at which they stand, the first at `offset` and each right after the
operand bytes of the one before. -/
def layout (p : Pool) (offset : Nat) : List Instr → List (Nat × Instr)
  | [] => []
  | i :: is => (offset, i) :: layout p (offset + 1 + (i.op p).operandSize) is

/-- Bytes of instructions decode to their operation codes, each at its place. -/
theorem decodeFrom_codeBytes (p : Pool) (offset : Nat) (is : List Instr) :
    decodeFrom offset 0 (codeBytes p is) =
      (layout p offset is).map fun (offset, i) => (offset, i.op p) := by
  induction is generalizing offset with
  | nil => rfl
  | cons i is ih =>
    rw [codeBytes_cons, Instr.bytes, decodeFrom_instruction _ _ _ _ (i.length_operand p), ih]
    rfl

/-- At its place an instruction has its bytes. -/
theorem exists_append_of_mem_layout {p : Pool} {is : List Instr} {x : Nat × Instr} :
    ∀ {offset : Nat}, x ∈ layout p offset is → x.2 ∈ is ∧
      ∃ before rest, codeBytes p is = before ++ (x.2.bytes p ++ rest) ∧ offset + before.length = x.1 := by
  induction is with
  | nil => intro _ hx; cases hx
  | cons i is ih =>
    intro offset hx
    rcases List.mem_cons.1 hx with rfl | hx
    · exact ⟨List.mem_cons_self, [], codeBytes p is, codeBytes_cons p i is, rfl⟩
    · obtain ⟨hmem, before, rest, hcode, hplace⟩ := ih hx
      refine ⟨List.mem_cons_of_mem i hmem, i.bytes p ++ before, rest, ?_, ?_⟩
      · rw [codeBytes_cons, hcode, List.append_assoc]
      · rw [List.length_append, i.length_bytes, ← hplace]
        omega

/-- Whether the operands of an instruction are read back at an offset: slots, kinds and argument counts as
they are, and of the number that a pool has for a constant what fits into one byte, or else the lowest
sixteen bits. -/
def Instr.OperandsAt (c : Chunk) (p : Pool) (offset : Nat) : Instr → Prop
  | push d => ∃ n, p.find? d = some n ∧
      if n < 256 then c.readByte? offset = some (UInt8.ofNat n)
      else c.readWord? offset = some (UInt16.ofNat n)
  | load _ slot | store _ slot => c.readWord? offset = some slot
  | newPair kind | initPair kind => c.readByte? offset = some kind.toByte
  | call target argCount => (∃ n, p.find? (.function target) = some n ∧
      c.readWord? offset = some (UInt16.ofNat n)) ∧ c.readByte? (offset + 2) = some argCount
  | bind value => ∃ n, p.find? (.bound value) = some n ∧ c.readWord? offset = some (UInt16.ofNat n)
  | bool _ | unit | pop | dup | ret _ => True

namespace Instr

variable {i : Instr} {p : Pool} {d : Constant}

theorem exists_find?_eq_index (hin : i.Interned p) (hd : i.constant? = some d) :
    p.find? d = some (i.index p) := by
  obtain ⟨n, hn⟩ := hin d hd
  simp only [index, hd, Option.bind_some, hn, Option.getD_some]

/-- Where the bytes of an instruction stand, its operands are read back. -/
theorem operandsAt_of_eq {c : Chunk} {before rest : List UInt8}
    (hcode : c.code.toList = before ++ (i.bytes p ++ rest)) (hin : i.Interned p) :
    i.OperandsAt c p (before.length + 1) := by
  have hoperand : c.code.toList = (before ++ [(i.op p).toByte]) ++ (i.operand p ++ rest) := by
    rw [hcode]
    simp [bytes]
  have hlength : (before ++ [(i.op p).toByte]).length = before.length + 1 := List.length_append
  rw [← hlength]
  cases i with
  | push d =>
    refine ⟨_, exists_find?_eq_index hin rfl, ?_⟩
    simp only [operand] at hoperand
    split at hoperand
    next hnarrow =>
      rw [if_pos hnarrow]
      exact Chunk.readByte?_of_eq hoperand
    next hwide =>
      rw [if_neg hwide]
      exact Chunk.readWord?_of_eq hoperand
  | load kind slot | store kind slot => exact Chunk.readWord?_of_eq hoperand
  | newPair kind | initPair kind => exact Chunk.readByte?_of_eq hoperand
  | call target argCount =>
    rw [operand, List.append_assoc (bigEndian _)] at hoperand
    refine ⟨⟨_, exists_find?_eq_index hin rfl, Chunk.readWord?_of_eq hoperand⟩, ?_⟩
    exact Chunk.getElem?_code_of_eq hoperand 2
  | bind value => exact ⟨_, exists_find?_eq_index hin rfl, Chunk.readWord?_of_eq hoperand⟩
  | bool | unit | pop | dup | ret => trivial

end Instr

/-! ## The result -/

/-- Whatever an emitter is asked for, its chunk decodes to the instructions that were asked for, in order:
the first at offset 0, each other one right after the operand bytes of the one before, and the last one
right before the end of the code.  Their operands are read back, and every byte has the line that was
current when its instruction was written. -/
theorem decoding_undoes_emission (ops : List EmitterOp) (pool : Pool) (maxLocals : UInt16) :
    let out := EmitterOp.runAll ops ({}, pool)
    let chunk := out.1.finish maxLocals
    let written := EmitterOp.written 0 ops
    let placed := layout out.2 0 (written.map Prod.snd)
    chunk.instructions = placed.map (fun (offset, i) => (offset, i.op out.2)) ∧
      chunk.size = codeSize out.2 (written.map Prod.snd) ∧
      (∀ x ∈ placed, x.2.OperandsAt chunk out.2 (x.1 + 1)) ∧
      chunk.lines.toList = codeLines out.2 written ∧ chunk.lines.size = chunk.size := by
  intro out chunk written placed
  have hwrites : Emitter.Writes written ({}, pool) out := EmitterOp.writes_runAll ops ({}, pool)
  have hcode : chunk.code.toList = codeBytes out.2 (written.map Prod.snd) := hwrites.code
  have hlines : chunk.lines.toList = codeLines out.2 written := hwrites.lines
  have hsize : chunk.size = codeSize out.2 (written.map Prod.snd) := by
    rw [Chunk.size, ← Array.length_toList, hcode, length_codeBytes]
  refine ⟨?_, hsize, fun x hx => ?_, hlines, ?_⟩
  · rw [Chunk.instructions, hcode, decodeFrom_codeBytes]
  · obtain ⟨hmem, before, rest, hbytes, hplace⟩ := exists_append_of_mem_layout hx
    rw [← hplace, Nat.zero_add]
    exact Instr.operandsAt_of_eq (hcode.trans hbytes) (hwrites.interned x.2 hmem)
  · rw [← Array.length_toList, hlines, hsize, length_codeLines]

end BlockCompiler

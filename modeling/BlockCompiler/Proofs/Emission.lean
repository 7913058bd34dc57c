import BlockCompiler.Proofs.Instruction

/-!
# What the emitter writes

Every operation of the emitter that writes code appends one instruction.  An `Emitted` is such an
instruction together with what the emitter counts for it, and `Emitter.writeAll` writes a list of
them with the numbers of one pool.

* `Emitter.constant_eq`, `Emitter.call_eq` and `Emitter.bind_eq` say that the operations with constants
  add the constant to the pool and then write the instruction with its number.
* `Emitter.writeAll_eq_of_growsTo` says that a pool that grows later would have led to the same code.
* `Emitter.code_writeAll` gives the bytes.
-/

namespace BlockCompiler

/-! ## Emitted instructions -/

/-- What the emitter counts for an instruction by itself; calls are counted with their callee. -/
def Instr.effect : Instr → Int
  | push _ | bool _ | unit | dup | load _ _ | newPair _ | bind _ => 1
  | pop | store _ _ | ret _ => -1
  | initPair _ => -3
  | call _ _ => 0

/-- An instruction and what the emitter counts for it. -/
structure Emitted where
  instr : Instr
  effect : Int
deriving DecidableEq, Repr, Inhabited

namespace Emitted

/-- An instruction with its own effect. -/
def of (i : Instr) : Emitted := ⟨i, i.effect⟩

/-- The call of a function, with an argument for each parameter. -/
def call (s : Signature) : Emitted :=
  ⟨.call s.hash (UInt8.ofNat s.arity),
    (if s.result.isUnit then 0 else 1) - ((UInt8.ofNat s.arity).toNat : Int)⟩

@[simp] theorem instr_of (i : Instr) : (of i).instr = i := rfl

end Emitted

/-- The instructions of a list of emitted ones. -/
def instrs (ms : List Emitted) : List Instr := ms.map Emitted.instr

@[simp] theorem instrs_nil : instrs [] = [] := rfl

@[simp] theorem instrs_cons (m : Emitted) (ms : List Emitted) :
    instrs (m :: ms) = m.instr :: instrs ms := rfl

@[simp] theorem instrs_append (ms ns : List Emitted) : instrs (ms ++ ns) = instrs ms ++ instrs ns :=
  List.map_append

/-- Whether a pool has a number for every constant of a list of instructions. -/
def AllInterned (ms : List Emitted) (p : Pool) : Prop := ∀ m ∈ ms, m.instr.Interned p

theorem AllInterned.nil (p : Pool) : AllInterned [] p := fun _ h => by cases h

theorem AllInterned.append {ms ns : List Emitted} {p : Pool} (h : AllInterned ms p)
    (h' : AllInterned ns p) : AllInterned (ms ++ ns) p := by
  intro m hm
  rcases List.mem_append.1 hm with hm | hm
  · exact h m hm
  · exact h' m hm

theorem AllInterned.mono {ms : List Emitted} {p q : Pool} (h : AllInterned ms p)
    (hpq : p.GrowsTo q) : AllInterned ms q :=
  fun m hm => (h m hm).mono hpq

theorem AllInterned.instrs {ms : List Emitted} {p : Pool} (h : AllInterned ms p) :
    ∀ i ∈ instrs ms, i.Interned p := by
  intro i hi
  obtain ⟨m, hm, rfl⟩ := List.mem_map.1 hi
  exact h m hm

namespace Emitter

/-! ## Single operations -/

/-- Writes an instruction with the number that a pool has for its constant. -/
def writeInstr (e : Emitter) (p : Pool) (m : Emitted) : Emitter :=
  e.write (m.instr.op p) (m.instr.operand p) m.effect

variable (e : Emitter) (p : Pool)

theorem bool_eq (value : Bool) : e.bool value = e.writeInstr p (.of (.bool value)) := by
  cases value <;> rfl

theorem unit_eq : e.unit = e.writeInstr p (.of .unit) := rfl

theorem pop_eq : e.pop = e.writeInstr p (.of .pop) := rfl

theorem dup_eq : e.dup = e.writeInstr p (.of .dup) := rfl

theorem load_eq (kind : ValueKind) (slot : UInt16) :
    e.load kind slot = e.writeInstr p (.of (.load kind slot)) := by
  cases kind <;> rfl

theorem newPair_eq (kind : PairKind) : e.newPair kind = e.writeInstr p (.of (.newPair kind)) := rfl

theorem initPair_eq (kind : PairKind) :
    e.initPair kind = e.writeInstr p (.of (.initPair kind)) := rfl

theorem ret_eq (kind : ValueKind) : e.ret kind = e.writeInstr p (.of (.ret kind)) := by
  cases kind <;> rfl

/-- Loading a constant adds it and writes the load. -/
theorem constant_eq (c : Constant) :
    e.constant c p = (e.writeInstr (p.add c).1 (.of (.push c)), (p.add c).1) := by
  have hindex : (Instr.push c).index (p.add c).1 = (p.add c).2 := Instr.index_add rfl p
  have hconst : e.constantAt (p.add c).2 = e.writeInstr (p.add c).1 (.of (.push c)) := by
    unfold constantAt writeInstr emitWith
    simp only [Emitted.instr_of, Instr.op, Instr.operand, hindex]
    split <;> rfl
  rw [← hconst]
  rfl

/-- Calling a function adds its identity and writes the call. -/
theorem call_eq (s : Signature) :
    e.call s.hash (UInt8.ofNat s.arity) (!s.result.isUnit) p =
      (e.writeInstr (p.add (.function s.hash)).1 (.call s), (p.add (.function s.hash)).1) := by
  have hindex : (Emitted.call s).instr.index (p.add (.function s.hash)).1 =
      (p.add (.function s.hash)).2 := Instr.index_add rfl p
  have hcall : e.callAt (p.add (.function s.hash)).2 (UInt8.ofNat s.arity) (!s.result.isUnit) =
      e.writeInstr (p.add (.function s.hash)).1 (.call s) := by
    unfold callAt writeInstr
    rw [← hindex]
    cases hu : s.result.isUnit <;> simp [Emitted.call, Instr.op, Instr.operand, hu]
  rw [← hcall]
  rfl

/-- Pushing a function value adds it and writes the instruction. -/
theorem bind_eq (v : FunctionValue) :
    e.bind v p = (e.writeInstr (p.add (.bound v)).1 (.of (.bind v)), (p.add (.bound v)).1) := by
  have hindex : (Instr.bind v).index (p.add (.bound v)).1 = (p.add (.bound v)).2 :=
    Instr.index_add rfl p
  have hbind : e.bindAt (p.add (.bound v)).2 =
      e.writeInstr (p.add (.bound v)).1 (.of (.bind v)) := by
    unfold bindAt writeInstr emitWith
    rw [← hindex]
    rfl
  rw [← hbind]
  rfl

/-! ## Sequences -/

/-- Writes instructions in sequence. -/
def writeAll (e : Emitter) (p : Pool) (ms : List Emitted) : Emitter :=
  ms.foldl (fun e m => e.writeInstr p m) e

@[simp] theorem writeAll_nil : e.writeAll p [] = e := rfl

theorem writeAll_append (ms ns : List Emitted) :
    e.writeAll p (ms ++ ns) = (e.writeAll p ms).writeAll p ns := by
  simp [writeAll]

/-- The code after instructions were written is the code before and then their bytes. -/
theorem code_writeAll (ms : List Emitted) :
    (e.writeAll p ms).chunk.code.toList = e.chunk.code.toList ++ codeBytes p (instrs ms) := by
  induction ms generalizing e with
  | nil => simp
  | cons m ms ih =>
    have hone : (e.writeInstr p m).chunk.code.toList =
        e.chunk.code.toList ++ m.instr.bytes p := by
      simp [writeInstr, write, Instr.bytes]
    rw [writeAll, List.foldl_cons, ← writeAll, ih, hone]
    simp

variable {p} in
/-- A pool that grew in the meantime would have led to the same code. -/
theorem writeAll_eq_of_growsTo {q : Pool} {ms : List Emitted} (h : AllInterned ms p)
    (hpq : p.GrowsTo q) : e.writeAll q ms = e.writeAll p ms := by
  induction ms generalizing e with
  | nil => rfl
  | cons m ms ih =>
    have hone : e.writeInstr q m = e.writeInstr p m := by
      obtain ⟨hop, hoperand⟩ := Instr.op_operand_eq_of_growsTo (h m (by simp)) hpq
      simp only [writeInstr, hop, hoperand]
    rw [writeAll, List.foldl_cons, ← writeAll, hone]
    exact ih _ fun n hn => h n (by simp [hn])

end Emitter

end BlockCompiler

import BlockCompiler.Chunk.Decode
import BlockCompiler.Emitter
import BlockCompiler.Proofs.Interning

/-!
# Instructions with their operands

Decoding a chunk lists operation codes and offsets.  An `Instr` is what a machine sees there: the
operation with its operands read, and with every index replaced by the constant behind it.

* `Chunk.readInstr?` reads the instruction at an offset, and `Chunk.listing?` all of a chunk.
* `Instr.bytes` writes an instruction, with the numbers that a pool has for its constants.
* `Instr.Interned` says that the pool has such numbers, and `Instr.stored` is the instruction with
  the constants that the pool holds under them: the same constants, but maybe other zeros.

`listing?_of_code` is the main result: code that consists of the bytes of instructions reads back as
those instructions, as long as the pool has no more constants than a word can count.
-/

namespace BlockCompiler

/-! ## Reading -/

/-- An instruction with its operands. -/
inductive Instr where
  | push (c : Constant)
  | bool (value : Bool)
  | unit
  | pop
  | dup
  | load (kind : ValueKind) (slot : UInt16)
  | store (kind : ValueKind) (slot : UInt16)
  | newPair (kind : PairKind)
  | initPair (kind : PairKind)
  | call (target : FunctionHash) (argCount : UInt8)
  | bind (value : FunctionValue)
  | ret (kind : ValueKind)
deriving DecidableEq, Repr, Inhabited

/-- The pair kind of an operand byte, if there is one. -/
def PairKind.ofByte? (b : UInt8) : Option PairKind :=
  if b = 0 then some .int else if b = 1 then some .real else none

@[simp] theorem PairKind.ofByte?_toByte (k : PairKind) : ofByte? k.toByte = some k := by
  cases k <;> rfl

namespace Chunk

/-- The index that the instruction at an offset refers to a constant by. -/
def indexAt? (c : Chunk) (offset : Nat) : OpCode → Option Nat
  | .constant => (c.readByte? (offset + 1)).map UInt8.toNat
  | .constantWide | .call | .bindFunction => (c.readWord? (offset + 1)).map UInt16.toNat
  | _ => none

/-- The constant that the instruction at an offset refers to. -/
def constantAt? (c : Chunk) (p : Pool) (offset : Nat) (op : OpCode) : Option Constant :=
  (c.indexAt? offset op).bind p.get?

/-- The instruction at an offset, where this operation code stands. -/
def readInstr? (c : Chunk) (p : Pool) (offset : Nat) : OpCode → Option Instr
  | .constant => (c.constantAt? p offset .constant).map .push
  | .constantWide => (c.constantAt? p offset .constantWide).map .push
  | .pushTrue => some (.bool true)
  | .pushFalse => some (.bool false)
  | .pushUnit => some .unit
  | .pop => some .pop
  | .dup => some .dup
  | .loadInt => (c.readWord? (offset + 1)).map (.load .int)
  | .loadReal => (c.readWord? (offset + 1)).map (.load .real)
  | .loadBool => (c.readWord? (offset + 1)).map (.load .bool)
  | .loadRef => (c.readWord? (offset + 1)).map (.load .ref)
  | .storeInt => (c.readWord? (offset + 1)).map (.store .int)
  | .storeReal => (c.readWord? (offset + 1)).map (.store .real)
  | .storeBool => (c.readWord? (offset + 1)).map (.store .bool)
  | .storeRef => (c.readWord? (offset + 1)).map (.store .ref)
  | .newPair => ((c.readByte? (offset + 1)).bind PairKind.ofByte?).map .newPair
  | .initPair => ((c.readByte? (offset + 1)).bind PairKind.ofByte?).map .initPair
  | .call =>
    match c.constantAt? p offset .call, c.readByte? (offset + 3) with
    | some (.function target), some argCount => some (.call target argCount)
    | _, _ => none
  | .bindFunction =>
    match c.constantAt? p offset .bindFunction with
    | some (.bound value) => some (.bind value)
    | _ => none
  | .returnInt => some (.ret .int)
  | .returnReal => some (.ret .real)
  | .returnBool => some (.ret .bool)
  | .returnRef => some (.ret .ref)

/-- The instructions of a chunk, if all of them can be read. -/
def listing? (c : Chunk) (p : Pool) : Option (List Instr) :=
  c.instructions.mapM fun (offset, op) => c.readInstr? p offset op

end Chunk

/-! ## Writing -/

/-- The constant that a pool holds in the place of another. -/
def Pool.stored (p : Pool) (c : Constant) : Constant := ((p.find? c).bind p.get?).getD c

theorem Pool.same_stored (p : Pool) (c : Constant) : Constant.Same (p.stored c) c := by
  unfold stored
  cases h : p.find? c with
  | none => exact .refl c
  | some i =>
    obtain ⟨d, hd, hsame⟩ := same_of_find? h
    simpa only [Option.bind_some, hd, Option.getD_some] using hsame

/-- Only reals are the same as others. -/
theorem Constant.Same.eq_of_ne_real {c d : Constant} (h : Constant.Same c d)
    (hd : ∀ x, d ≠ .real x) : c = d := by
  cases c <;> cases d <;> simp_all [Constant.Same, Constant.canonical]

theorem Pool.stored_eq (p : Pool) {c : Constant} (hc : ∀ x, c ≠ .real x) : p.stored c = c :=
  (p.same_stored c).eq_of_ne_real hc

/-- The real that a pool holds in the place of another. -/
def Pool.storedReal (p : Pool) (x : Binary64) : Binary64 :=
  match p.stored (.real x) with
  | .real y => y
  | _ => x

theorem Pool.stored_real (p : Pool) (x : Binary64) : p.stored (.real x) = .real (p.storedReal x) := by
  have hsame := p.same_stored (.real x)
  unfold storedReal
  cases h : p.stored (.real x) with
  | real y => rfl
  | _ =>
    rw [h] at hsame
    simp [Constant.Same, Constant.canonical] at hsame

namespace Instr

/-- The constant that an instruction refers to. -/
def constant? : Instr → Option Constant
  | push c => some c
  | call target _ => some (.function target)
  | bind value => some (.bound value)
  | _ => none

/-- Whether a pool has a number for the constant of an instruction. -/
def Interned (i : Instr) (p : Pool) : Prop := ∀ c, i.constant? = some c → ∃ n, p.find? c = some n

/-- The number that a pool has for the constant of an instruction. -/
def index (i : Instr) (p : Pool) : Nat := (i.constant?.bind p.find?).getD 0

/-- The operation code of an instruction. -/
def op (i : Instr) (p : Pool) : OpCode :=
  match i with
  | push _ => if i.index p < 256 then .constant else .constantWide
  | bool value => if value then .pushTrue else .pushFalse
  | unit => .pushUnit
  | pop => .pop
  | dup => .dup
  | load kind _ => kind.loadOp
  | store kind _ => kind.storeOp
  | newPair _ => .newPair
  | initPair _ => .initPair
  | call _ _ => .call
  | bind _ => .bindFunction
  | ret kind => kind.returnOp

/-- The operand bytes of an instruction. -/
def operand (i : Instr) (p : Pool) : List UInt8 :=
  match i with
  | push _ =>
    if i.index p < 256 then [UInt8.ofNat (i.index p)]
    else bigEndian (UInt16.ofNat (i.index p))
  | load _ slot | store _ slot => bigEndian slot
  | newPair kind | initPair kind => [kind.toByte]
  | call _ argCount => bigEndian (UInt16.ofNat (i.index p)) ++ [argCount]
  | bind _ => bigEndian (UInt16.ofNat (i.index p))
  | _ => []

/-- The bytes of an instruction. -/
def bytes (i : Instr) (p : Pool) : List UInt8 := (i.op p).toByte :: i.operand p

/-- An instruction with the constants that a pool holds in place of its own. -/
def stored (i : Instr) (p : Pool) : Instr :=
  match i with
  | push c => push (p.stored c)
  | i => i

/-- A form that instructions are written in has as many operand bytes as its code says. -/
theorem length_operand (i : Instr) (p : Pool) : (i.operand p).length = (i.op p).operandSize := by
  cases i with
  | push c =>
    by_cases h : (push c).index p < 256 <;>
      simp [operand, op, h, bigEndian, OpCode.operandSize]
  | bool value => cases value <;> rfl
  | load kind slot => cases kind <;> rfl
  | store kind slot => cases kind <;> rfl
  | ret kind => cases kind <;> rfl
  | _ => rfl

end Instr

/-! ## Growing pools -/

namespace Instr

variable {p q : Pool}

/-- A pool that grows keeps the numbers of an instruction's constants. -/
theorem Interned.mono {i : Instr} (h : i.Interned p) (hpq : p.GrowsTo q) : i.Interned q := by
  intro c hc
  obtain ⟨n, hn⟩ := h c hc
  exact ⟨n, hpq.find? hn⟩

/-- A pool that grows does not change the number of an instruction's constant. -/
theorem index_eq_of_growsTo {i : Instr} (h : i.Interned p) (hpq : p.GrowsTo q) :
    i.index q = i.index p := by
  unfold index
  cases hc : i.constant? with
  | none => rfl
  | some c =>
    obtain ⟨n, hn⟩ := h c hc
    simp only [Option.bind_some, hn, hpq.find? hn]

/-- A pool that grows does not change how an instruction is written. -/
theorem op_operand_eq_of_growsTo {i : Instr} (h : i.Interned p) (hpq : p.GrowsTo q) :
    i.op q = i.op p ∧ i.operand q = i.operand p := by
  have hindex := index_eq_of_growsTo h hpq
  unfold op operand
  cases i <;> simp only [hindex, and_self]

/-- An instruction without constants is always fine. -/
theorem interned_of_constant?_eq_none {i : Instr} (h : i.constant? = none) (p : Pool) :
    i.Interned p := by
  intro c hc
  rw [h] at hc
  cases hc

/-- Adding the constant of an instruction gives it a number. -/
theorem interned_add {i : Instr} {c : Constant} (h : i.constant? = some c) (p : Pool) :
    i.Interned (p.add c).1 := by
  intro d hd
  rw [h] at hd
  obtain rfl := Option.some.inj hd
  exact ⟨_, p.find?_add c⟩

/-- That number is the one that the addition returned. -/
theorem index_add {i : Instr} {c : Constant} (h : i.constant? = some c) (p : Pool) :
    i.index (p.add c).1 = (p.add c).2 := by
  simp only [index, h, Option.bind_some, p.find?_add c, Option.getD_some]

end Instr

/-- The bytes of instructions in sequence. -/
def codeBytes (p : Pool) (is : List Instr) : List UInt8 := is.flatMap fun i => i.bytes p

@[simp] theorem codeBytes_nil (p : Pool) : codeBytes p [] = [] := rfl

@[simp] theorem codeBytes_cons (p : Pool) (i : Instr) (is : List Instr) :
    codeBytes p (i :: is) = i.bytes p ++ codeBytes p is := by
  simp [codeBytes]

@[simp] theorem codeBytes_append (p : Pool) (is js : List Instr) :
    codeBytes p (is ++ js) = codeBytes p is ++ codeBytes p js := by
  simp [codeBytes]

/-- A pool that grows does not change the bytes of instructions. -/
theorem codeBytes_eq_of_growsTo {p q : Pool} {is : List Instr} (h : ∀ i ∈ is, i.Interned p)
    (hpq : p.GrowsTo q) : codeBytes q is = codeBytes p is := by
  induction is with
  | nil => rfl
  | cons i is ih =>
    obtain ⟨hop, hoperand⟩ := Instr.op_operand_eq_of_growsTo (h i (by simp)) hpq
    rw [codeBytes_cons, codeBytes_cons, Instr.bytes, Instr.bytes, hop, hoperand,
      ih fun j hj => h j (by simp [hj])]

/-! ## Reading what was written -/

/-- The two bytes of a word read back as the word. -/
theorem word_of_bigEndian (w : UInt16) :
    ((w >>> 8).toUInt8.toUInt16 <<< 8 ||| w.toUInt8.toUInt16) = w := by
  rw [← UInt16.toNat_inj]
  have hw : w.toNat < 65536 := w.toNat_lt
  have hlow : w.toNat % 256 < 2 ^ 8 := Nat.mod_lt _ (by decide)
  have hhigh : w.toNat / 256 % 256 * 256 % 65536 = w.toNat / 256 * 2 ^ 8 := by omega
  simp only [UInt16.toNat_or, UInt16.toNat_shiftLeft, UInt8.toNat_toUInt16, UInt16.toNat_toUInt8,
    UInt16.toNat_shiftRight, Nat.shiftRight_eq_div_pow, Nat.shiftLeft_eq]
  simp only [UInt16.reduceToNat, Nat.reduceMod, Nat.reducePow]
  rw [hhigh, Nat.mul_comm, ← Nat.two_pow_add_eq_or_of_lt hlow]
  omega

namespace Chunk

variable {c : Chunk} {p : Pool} {before rest : List UInt8}

theorem getElem?_code_of_eq (h : c.code.toList = before ++ rest) (n : Nat) :
    c.code[before.length + n]? = rest[n]? := by
  rw [← Array.getElem?_toList, h, List.getElem?_append_right (by omega)]
  congr 1
  omega

theorem readWord?_of_eq {w : UInt16}
    (h : c.code.toList = before ++ (bigEndian w ++ rest)) :
    c.readWord? before.length = some w := by
  have hhigh := getElem?_code_of_eq h 0
  have hlow := getElem?_code_of_eq h 1
  simp only [bigEndian, List.cons_append, List.nil_append, List.getElem?_cons_zero,
    List.getElem?_cons_succ, Nat.add_zero] at hhigh hlow
  simp only [readWord?, hhigh, hlow, word_of_bigEndian]

theorem readByte?_of_eq {b : UInt8} (h : c.code.toList = before ++ (b :: rest)) :
    c.readByte? before.length = some b := by
  have hbyte := getElem?_code_of_eq h 0
  simpa only [readByte?, Nat.add_zero, List.getElem?_cons_zero] using hbyte

/-- Where an instruction stands in code, its operation code and then its operand follow. -/
private theorem operand_at {i : Instr} (h : c.code.toList = before ++ (i.bytes p ++ rest)) :
    c.code.toList = (before ++ [(i.op p).toByte]) ++ (i.operand p ++ rest) := by
  rw [h]
  simp [Instr.bytes]

/-- An interned constant is found under its number, in the place of which the pool's own stands. -/
private theorem get?_index {i : Instr} {d : Constant} (hin : i.Interned p)
    (hd : i.constant? = some d) : p.get? (i.index p) = some (p.stored d) := by
  obtain ⟨n, hn⟩ := hin d hd
  obtain ⟨e, he, _⟩ := Pool.same_of_find? hn
  simp only [Instr.index, Pool.stored, hd, Option.bind_some, hn, he, Option.getD_some]

private theorem index_lt_size {i : Instr} {d : Constant} (hin : i.Interned p)
    (hd : i.constant? = some d) : i.index p < p.size := by
  obtain ⟨n, hn⟩ := hin d hd
  have hlt := Pool.lt_size_of_find? hn
  simpa only [Instr.index, hd, Option.bind_some, hn, Option.getD_some] using hlt

/-- Sixteen bits of the number of a constant are what its instruction refers to it by. -/
theorem indexAt?_of_eq {i : Instr} {d : Constant}
    (h : c.code.toList = before ++ (i.bytes p ++ rest)) (hd : i.constant? = some d) :
    c.indexAt? before.length (i.op p) = some (i.index p % 65536) := by
  have hcode := operand_at h
  have hlen : (before ++ [(i.op p).toByte]).length = before.length + 1 := by simp
  cases i with
  | push d' =>
    by_cases hn : (Instr.push d').index p < 256
    · have hop : (Instr.push d').op p = .constant := by simp [Instr.op, hn]
      have hoperand : (Instr.push d').operand p = [UInt8.ofNat ((Instr.push d').index p)] := by
        simp [Instr.operand, hn]
      rw [hoperand] at hcode
      have hbyte := readByte?_of_eq hcode
      rw [hlen] at hbyte
      simp only [hop, indexAt?, hbyte, Option.map_some, UInt8.toNat_ofNat', Option.some.injEq]
      omega
    · have hop : (Instr.push d').op p = .constantWide := by simp [Instr.op, hn]
      have hoperand : (Instr.push d').operand p =
          bigEndian (UInt16.ofNat ((Instr.push d').index p)) := by
        simp [Instr.operand, hn]
      rw [hoperand] at hcode
      have hword := readWord?_of_eq hcode
      rw [hlen] at hword
      simp only [hop, indexAt?, hword, Option.map_some, UInt16.toNat_ofNat', Nat.reducePow]
  | call target argCount =>
    rw [Instr.operand, List.append_assoc (bigEndian _)] at hcode
    have hword := readWord?_of_eq hcode
    rw [hlen] at hword
    simp only [Instr.op, indexAt?, hword, Option.map_some, UInt16.toNat_ofNat', Nat.reducePow]
  | bind value =>
    rw [Instr.operand] at hcode
    have hword := readWord?_of_eq hcode
    rw [hlen] at hword
    simp only [Instr.op, indexAt?, hword, Option.map_some, UInt16.toNat_ofNat', Nat.reducePow]
  | _ => cases hd

/-- If the pool is small enough, an instruction that stands in code refers to its constant. -/
theorem constantAt?_of_eq {i : Instr} {d : Constant}
    (h : c.code.toList = before ++ (i.bytes p ++ rest)) (hin : i.Interned p)
    (hd : i.constant? = some d) (hsize : p.size ≤ 65536) :
    c.constantAt? p before.length (i.op p) = some (p.stored d) := by
  have hlt : i.index p < 65536 := Nat.lt_of_lt_of_le (index_lt_size hin hd) hsize
  rw [constantAt?, indexAt?_of_eq h hd, Nat.mod_eq_of_lt hlt]
  exact get?_index hin hd

/-- Where an instruction stands in code, it reads back, with the pool's own constants. -/
theorem readInstr?_of_eq {i : Instr} (h : c.code.toList = before ++ (i.bytes p ++ rest))
    (hin : i.Interned p) (hsize : p.size ≤ 65536) :
    c.readInstr? p before.length (i.op p) = some (i.stored p) := by
  have hcode := operand_at h
  have hlen : (before ++ [(i.op p).toByte]).length = before.length + 1 := by simp
  cases i with
  | push d =>
    have hconst := constantAt?_of_eq h hin rfl hsize
    by_cases hn : (Instr.push d).index p < 256
    · have hop : (Instr.push d).op p = .constant := by simp [Instr.op, hn]
      rw [hop] at hconst ⊢
      simp only [readInstr?, hconst, Option.map_some, Instr.stored]
    · have hop : (Instr.push d).op p = .constantWide := by simp [Instr.op, hn]
      rw [hop] at hconst ⊢
      simp only [readInstr?, hconst, Option.map_some, Instr.stored]
  | bool value => cases value <;> rfl
  | load kind slot =>
    have hword := readWord?_of_eq hcode
    rw [hlen] at hword
    cases kind <;>
      simp only [Instr.op, ValueKind.loadOp, readInstr?, hword, Option.map_some, Instr.stored]
  | store kind slot =>
    have hword := readWord?_of_eq hcode
    rw [hlen] at hword
    cases kind <;>
      simp only [Instr.op, ValueKind.storeOp, readInstr?, hword, Option.map_some, Instr.stored]
  | newPair kind =>
    have hbyte := readByte?_of_eq hcode
    rw [hlen] at hbyte
    simp only [Instr.op, readInstr?, hbyte, Option.bind_some, PairKind.ofByte?_toByte,
      Option.map_some, Instr.stored]
  | initPair kind =>
    have hbyte := readByte?_of_eq hcode
    rw [hlen] at hbyte
    simp only [Instr.op, readInstr?, hbyte, Option.bind_some, PairKind.ofByte?_toByte,
      Option.map_some, Instr.stored]
  | call target argCount =>
    have hconst := constantAt?_of_eq h hin rfl hsize
    rw [p.stored_eq (by simp)] at hconst
    have hcount : c.readByte? (before.length + 3) = some argCount := by
      have hbyte := getElem?_code_of_eq hcode 2
      rw [hlen] at hbyte
      simpa [readByte?, Instr.operand, bigEndian] using hbyte
    simp only [Instr.op] at hconst ⊢
    simp only [readInstr?, hconst, hcount, Instr.stored]
  | bind value =>
    have hconst := constantAt?_of_eq h hin rfl hsize
    rw [p.stored_eq (by simp)] at hconst
    simp only [Instr.op] at hconst ⊢
    simp only [readInstr?, hconst, Instr.stored]
  | ret kind => cases kind <;> rfl
  | _ => rfl

/-- Induction on the instructions; `before` is the code that was read already. -/
private theorem mapM_readInstr?_aux (hsize : p.size ≤ 65536) (is : List Instr) :
    ∀ before : List UInt8, c.code.toList = before ++ codeBytes p is →
      (∀ i ∈ is, i.Interned p) →
      (decodeFrom before.length 0 (codeBytes p is)).mapM
          (fun (offset, op) => c.readInstr? p offset op) =
        some (is.map fun i => i.stored p) := by
  induction is with
  | nil => intros; rfl
  | cons i is ih =>
    intro before h hin
    rw [codeBytes_cons] at h ⊢
    have hread := readInstr?_of_eq h (hin i (by simp)) hsize
    have hrest := ih (before ++ i.bytes p) (by rw [h, List.append_assoc])
      fun j hj => hin j (by simp [hj])
    have hlen : (before ++ i.bytes p).length = before.length + 1 + (i.op p).operandSize := by
      simp only [Instr.bytes, List.length_append, List.length_cons, Instr.length_operand]
      omega
    rw [hlen] at hrest
    rw [Instr.bytes, decodeFrom_instruction _ _ _ _ (i.length_operand p)]
    simp only [List.mapM_cons, hread, hrest, List.map_cons]
    rfl

/-- Code that consists of the bytes of instructions reads back as these instructions. -/
theorem listing?_of_code {is : List Instr} (hcode : c.code.toList = codeBytes p is)
    (hin : ∀ i ∈ is, i.Interned p) (hsize : p.size ≤ 65536) :
    c.listing? p = some (is.map fun i => i.stored p) := by
  have h := mapM_readInstr?_aux (c := c) hsize is [] (by simpa using hcode) hin
  rw [listing?, instructions, hcode]
  exact h

/-- It has their operation codes, however many constants the pool has. -/
theorem opcodes_of_code {is : List Instr} (hcode : c.code.toList = codeBytes p is) :
    c.opcodes = is.map fun i => i.op p := by
  have h (offset : Nat) :
      (decodeFrom offset 0 (codeBytes p is)).map Prod.snd = is.map fun i => i.op p := by
    clear hcode
    induction is generalizing offset with
    | nil => rfl
    | cons i is ih =>
      rw [codeBytes_cons, Instr.bytes, decodeFrom_instruction _ _ _ _ (i.length_operand p),
        List.map_cons, List.map_cons, ih]
  rw [opcodes, instructions, hcode, h]

end Chunk

end BlockCompiler

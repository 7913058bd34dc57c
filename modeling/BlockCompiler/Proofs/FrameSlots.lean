import BlockCompiler.Proofs.FrameSizing
import BlockCompiler.Proofs.Numbering

/-!
# The slots of a frame

Slots are words, so there are 65536 of them, and so many arguments a scope takes.  The number of arguments
is a word as well.  That of a full scope is none: it comes out as zero.

* `Scope.declareAll` declares arguments one after the other, whatever comes of it, and `Scope.declared`
  lists those that got a slot.  `Scope.Holds` is what a scope that holds them is like, with a lemma for one
  declaration and one for all.
* `Chunk.exists_of_mem_instructions` finds what was written where an operation code is decoded, and
  `Chunk.slot_of_load` the slot that is loaded there.
* `frame_covers_slots_iff` is the result: a frame has room for all its slots unless there are 65536.  By
  `exists_frame_without_room` there can be so many.
-/

namespace BlockCompiler

/-! ## Declarations in sequence -/

namespace Scope

/-- What an argument is declared with: its name and type, the function and the place to blame. -/
structure Request where
  param : Param
  function : String
  span : Span

/-- Declares an argument. -/
def answer (sc : Scope) (r : Request) : Except CompileError UInt16 × Scope :=
  declare r.param.name r.param.ty r.function r.span sc

/-- Declares arguments one after the other, however each declaration ends. -/
def declareAll (sc : Scope) (rs : List Request) : Scope := rs.foldl (fun sc r => (sc.answer r).2) sc

/-- The arguments of a list that are declared, with the slots that they get. -/
def declared (sc : Scope) : List Request → List LocalVar
  | [] => []
  | r :: rs =>
    match sc.answer r with
    | (.ok slot, sc') => ⟨r.param.name, r.param.ty, slot⟩ :: declared sc' rs
    | (.error _, sc') => declared sc' rs

/-- The scope holds these arguments, in the order of their slots, and no name twice. -/
structure Holds (sc : Scope) (vs : List LocalVar) : Prop where
  vars : sc.toList = vs
  slots : ∀ {i : Nat} {v : LocalVar}, vs[i]? = some v → v.slot.toNat = i
  names : (vs.map LocalVar.name).Nodup
  lookup : ∀ name, sc.get? name = vs.find? (·.name = name)
  limit : vs.length ≤ slotLimit

variable {sc : Scope} {vs : List LocalVar}

theorem holds_empty : empty.Holds [] := by
  refine ⟨rfl, fun hv => ?_, List.nodup_nil, fun name => ?_, Nat.zero_le _⟩
  · cases hv
  · rw [get?_empty, List.find?_nil]

theorem Holds.size_eq (h : sc.Holds vs) : sc.size = vs.length := by
  rw [← h.vars]
  exact Array.length_toList.symm

/-- A new name gets the next slot if there is one. -/
theorem answer_of_free {r : Request} (hfree : sc.get? r.param.name = none) (hsize : sc.size < slotLimit) :
    sc.answer r = (.ok (UInt16.ofNat sc.size), sc.push r.param.name r.param.ty) := by
  have hfresh : sc.byName.contains r.param.name = false := by
    rw [Bool.eq_false_iff]
    simpa [get?] using hfree
  rw [answer, declare, if_neg (by simp [hfresh]), if_pos hsize]

/-- An argument is declared in the next slot, or the scope stays as it was. -/
theorem answer_cases (sc : Scope) (r : Request) :
    (sc.get? r.param.name = none ∧ sc.size < slotLimit ∧
        sc.answer r = (.ok (UInt16.ofNat sc.size), sc.push r.param.name r.param.ty)) ∨
      ∃ err, sc.answer r = (.error err, sc) := by
  rcases hrun : sc.answer r with ⟨result, sc'⟩
  cases result with
  | ok slot =>
    obtain ⟨hfree, hsize, rfl⟩ := declare_eq_ok hrun
    rw [answer_of_free hfree hsize] at hrun
    exact .inl ⟨hfree, hsize, hrun.symm⟩
  | error err =>
    refine .inr ⟨err, ?_⟩
    unfold answer declare at hrun
    split at hrun
    · cases hrun
      rfl
    · split at hrun <;> cases hrun
      rfl

/-- What is declared under a new name comes last. -/
theorem Holds.push (h : sc.Holds vs) {name : String} (ty : Ty) (hfree : sc.get? name = none)
    (hsize : sc.size < slotLimit) :
    (sc.push name ty).Holds (vs ++ [⟨name, ty, UInt16.ofNat sc.size⟩]) := by
  rw [h.size_eq] at hsize
  refine
    { vars := ?vars
      slots := ?slots
      names := ?names
      lookup := ?lookup
      limit := ?limit }
  case vars => rw [toList, Scope.push, Array.toList_push, ← toList, h.vars]
  case slots =>
    intro i v hv
    by_cases hi : i < vs.length
    · rw [List.getElem?_append_left hi] at hv
      exact h.slots hv
    · have hend : i < vs.length + 1 := by simpa using (List.getElem?_eq_some_iff.1 hv).1
      obtain rfl : i = vs.length := by omega
      cases List.getElem?_concat_length.symm.trans hv
      have hword : vs.length < 65536 := hsize
      rw [h.size_eq, UInt16.toNat_ofNat', Nat.mod_eq_of_lt hword]
  case names =>
    have hnew : name ∉ vs.map LocalVar.name := by
      intro hmem
      obtain ⟨v, hv, hname⟩ := List.mem_map.1 hmem
      rw [h.lookup, List.find?_eq_none] at hfree
      exact hfree v hv (by simpa using hname)
    rw [List.map_append, List.map_singleton, ← List.concat_eq_append]
    exact h.names.concat hnew
  case lookup =>
    intro name'
    rw [get?_push, List.find?_append, ← h.lookup]
    by_cases hname : name = name'
    · subst hname
      simp [hfree]
    · simp [hname]
  case limit =>
    rw [List.length_append, List.length_singleton]
    exact hsize

/-- A scope holds what was declared, in order. -/
theorem Holds.declareAll (h : sc.Holds vs) (rs : List Request) :
    (sc.declareAll rs).Holds (vs ++ sc.declared rs) := by
  induction rs generalizing sc vs with
  | nil => simpa [Scope.declareAll, declared] using h
  | cons r rs ih =>
    rw [Scope.declareAll, List.foldl_cons, ← Scope.declareAll, declared]
    rcases sc.answer_cases r with ⟨hfree, hsize, hrun⟩ | ⟨err, hrun⟩
    · rw [hrun]
      simpa using ih (h.push r.param.ty hfree hsize)
    · rw [hrun]
      exact ih h

theorem Holds.toNat_maxLocals (h : sc.Holds vs) : sc.maxLocals.toNat = vs.length % 65536 := by
  rw [maxLocals, UInt16.toNat_ofNat', h.size_eq]

/-- The number of slots is above each slot unless all slots are taken. -/
theorem Holds.covers_iff (h : sc.Holds vs) :
    (∀ v ∈ vs, v.slot < sc.maxLocals) ↔ vs.length < 65536 := by
  have hlimit : vs.length ≤ 65536 := h.limit
  have hmax := h.toNat_maxLocals
  constructor
  · intro hcovers
    by_contra hfull
    obtain ⟨v, hv⟩ : ∃ v, v ∈ vs := List.exists_mem_of_length_pos (by omega)
    have hlt := UInt16.lt_iff_toNat_lt.1 (hcovers v hv)
    omega
  · intro hlt v hv
    obtain ⟨i, hi⟩ := List.mem_iff_getElem?.1 hv
    have hslot := h.slots hi
    have hbound := (List.getElem?_eq_some_iff.1 hi).1
    rw [UInt16.lt_iff_toNat_lt, hmax, hslot, Nat.mod_eq_of_lt hlt]
    exact hbound

/-- Arguments of different names are all declared as long as there are slots. -/
theorem Holds.length_declared (h : sc.Holds vs) (rs : List Request)
    (hnames : (vs.map LocalVar.name ++ rs.map fun r => r.param.name).Nodup)
    (hlimit : vs.length + rs.length ≤ slotLimit) : (sc.declared rs).length = rs.length := by
  induction rs generalizing sc vs with
  | nil => rfl
  | cons r rs ih =>
    rw [List.length_cons] at hlimit
    have hfree : r.param.name ∉ vs.map LocalVar.name := fun hmem =>
      (List.nodup_append.1 hnames).2.2 _ hmem _ (by simp) rfl
    have hnone : sc.get? r.param.name = none := by
      rw [h.lookup, List.find?_eq_none]
      intro v hv hname
      exact hfree (List.mem_map.2 ⟨v, hv, by simpa using hname⟩)
    have hsize : sc.size < slotLimit := by
      rw [h.size_eq]
      omega
    rw [declared, answer_of_free hnone hsize]
    have hrest := ih (h.push r.param.ty hnone hsize) (by simpa using hnames) (by simp; omega)
    rw [List.length_cons, List.length_cons, hrest]

/-- Requests for arguments with numbers for names, the first of them `start`. -/
def numbered (start : Nat) : Nat → List Request
  | 0 => []
  | n + 1 => ⟨⟨toString start, .real⟩, "f", default⟩ :: numbered (start + 1) n

theorem length_numbered (start n : Nat) : (numbered start n).length = n := by
  induction n generalizing start with
  | zero => rfl
  | succ n ih => rw [numbered, List.length_cons, ih]

theorem nodup_numbered (start n : Nat) : ((numbered start n).map fun r => r.param.name).Nodup := by
  have hmem (start n : Nat) {name : String}
      (h : name ∈ (numbered start n).map fun r => r.param.name) :
      ∃ i, start ≤ i ∧ name = toString i := by
    induction n generalizing start with
    | zero => cases h
    | succ n ih =>
      rcases List.mem_cons.1 h with rfl | h
      · exact ⟨start, Nat.le_refl _, rfl⟩
      · obtain ⟨i, hi, hname⟩ := ih (start + 1) h
        exact ⟨i, by omega, hname⟩
  induction n generalizing start with
  | zero => exact List.nodup_nil
  | succ n ih =>
    refine List.nodup_cons.2 ⟨fun h => ?_, ih (start + 1)⟩
    obtain ⟨i, hi, hname⟩ := hmem (start + 1) n h
    have := toString_nat_inj hname
    omega

/-- So many arguments can be declared as there are slots. -/
theorem length_declared_numbered {n : Nat} (hn : n ≤ slotLimit) :
    (empty.declared (numbered 0 n)).length = n := by
  have hlength := length_numbered 0 n
  have hlimit : 0 + (numbered 0 n).length ≤ slotLimit := by omega
  rw [holds_empty.length_declared (numbered 0 n) (nodup_numbered 0 n) hlimit, hlength]

end Scope

/-! ## Loads -/

/-- Only loads have the operation code of a load. -/
theorem Instr.eq_load_of_op {i : Instr} {p : Pool} {kind : ValueKind} (h : i.op p = kind.loadOp) :
    ∃ slot, i = .load kind slot := by
  cases i with
  | load kind' slot =>
    refine ⟨slot, ?_⟩
    cases kind <;> cases kind' <;> first | rfl | cases h
  | push c =>
    rw [Instr.op] at h
    split at h <;> cases kind <;> cases h
  | bool value => cases value <;> cases kind <;> cases h
  | store kind' | ret kind' => cases kind <;> cases kind' <;> cases h
  | _ => cases kind <;> cases h

namespace Chunk

variable {c : Chunk} {p : Pool} {is : List Instr}

/-- Where an operation code is decoded, an instruction was written. -/
theorem exists_of_mem_instructions (hcode : c.code.toList = codeBytes p is) {offset : Nat} {op : OpCode}
    (h : (offset, op) ∈ c.instructions) :
    ∃ i ∈ is, ∃ before rest, before.length = offset ∧ op = i.op p ∧
      c.code.toList = before ++ (i.bytes p ++ rest) := by
  -- The induction is on the instructions; `before` is the code in front of them.
  have hfind (js : List Instr) (before : List UInt8)
      (h : (offset, op) ∈ decodeFrom before.length 0 (codeBytes p js)) :
      ∃ i ∈ js, ∃ before' rest, before'.length = offset ∧ op = i.op p ∧
        before ++ codeBytes p js = before' ++ (i.bytes p ++ rest) := by
    induction js generalizing before with
    | nil => cases h
    | cons i js ih =>
      rw [codeBytes_cons, Instr.bytes, decodeFrom_instruction _ _ _ _ (i.length_operand p)] at h
      rcases List.mem_cons.1 h with heq | h
      · cases heq
        exact ⟨i, by simp, before, codeBytes p js, rfl, rfl, by rw [codeBytes_cons]⟩
      · have hlength : before.length + 1 + (i.op p).operandSize = (before ++ i.bytes p).length := by
          simp only [Instr.bytes, List.length_append, List.length_cons, Instr.length_operand]
          omega
        rw [hlength] at h
        obtain ⟨j, hj, before', rest, hbefore, hop, hsplit⟩ := ih (before ++ i.bytes p) h
        refine ⟨j, List.mem_cons_of_mem i hj, before', rest, hbefore, hop, ?_⟩
        rw [codeBytes_cons, ← hsplit, List.append_assoc]
  rw [instructions, hcode] at h
  obtain ⟨i, hi, before, rest, hbefore, hop, hsplit⟩ := hfind is [] h
  exact ⟨i, hi, before, rest, hbefore, hop, by rw [hcode]; exact hsplit⟩

/-- Where a load is decoded, the slot of an instruction that loads is its operand. -/
theorem slot_of_load (hcode : c.code.toList = codeBytes p is) {offset : Nat} {kind : ValueKind}
    (h : (offset, kind.loadOp) ∈ c.instructions) :
    ∃ slot, c.readWord? (offset + 1) = some slot ∧ Instr.load kind slot ∈ is := by
  obtain ⟨i, hi, before, rest, rfl, hop, hbytes⟩ := exists_of_mem_instructions hcode h
  obtain ⟨slot, rfl⟩ := Instr.eq_load_of_op hop.symm
  have hword : c.code.toList = before ++ [kind.loadOp.toByte] ++ (bigEndian slot ++ rest) := by
    rw [hbytes]
    simp [Instr.bytes, Instr.op, Instr.operand]
  have hread := readWord?_of_eq hword
  rw [List.length_append, List.length_singleton] at hread
  exact ⟨slot, hread, hi⟩

end Chunk

/-- The slot of a load in the code of a function is that of a parameter. -/
theorem Emitted.Proper.slot_lt {functions : FunctionTable} {ps : List Param} {m : Emitted}
    {kind : ValueKind} {slot : UInt16} (h : m.Proper functions (.ofParams ps))
    (hps : ps.length ≤ Scope.slotLimit) (hm : m.instr = .load kind slot) : slot.toNat < ps.length := by
  cases h with
  | plain hi =>
    rw [instr_of] at hm
    rw [hm] at hi
    cases hi
  | load hv =>
    cases hm
    exact (List.getElem?_eq_some_iff.1 (Scope.getElem?_slot hps hv)).1
  | call => cases hm

/-! ## The frame and its slots -/

/-- The number of slots that a frame has room for is that of its slots unless all of them are taken, and
then it is zero.

A scope holds the arguments that were declared in order, however many declarations failed.  They have the
slots from zero on and different names, and each is found under its name.  There are 65536 of them at most,
and their number as a word is right, and above each of their slots, just if there are fewer.  A load in the
code of a function in a module names the slot of a parameter, and that slot is one of the frame's just if
there are fewer than 65536 parameters. -/
theorem frame_covers_slots_iff (rs : List Scope.Request) (functions : FunctionTable) (options : Options)
    (block : Block) :
    ((Scope.empty.declareAll rs).toList = Scope.empty.declared rs ∧
      (∀ (i : Nat) (v : LocalVar), (Scope.empty.declared rs)[i]? = some v → v.slot.toNat = i) ∧
      ((Scope.empty.declared rs).map LocalVar.name).Nodup ∧
      (∀ name, (Scope.empty.declareAll rs).get? name =
        (Scope.empty.declared rs).find? (·.name = name)) ∧
      (Scope.empty.declared rs).length ≤ 65536 ∧
      ((Scope.empty.declareAll rs).maxLocals.toNat = (Scope.empty.declared rs).length ↔
        (Scope.empty.declared rs).length < 65536) ∧
      ((∀ v ∈ Scope.empty.declared rs, v.slot < (Scope.empty.declareAll rs).maxLocals) ↔
        (Scope.empty.declared rs).length < 65536)) ∧
    ∀ entry ∈ (compileBlock functions options block).module.functions,
      ∃ chunk, entry.code? = some chunk ∧ entry.signature.arity ≤ 65536 ∧
        chunk.maxLocals.toNat = entry.signature.arity % 65536 ∧
        ∀ offset kind, (offset, ValueKind.loadOp kind) ∈ chunk.instructions →
          ∃ slot, chunk.readWord? (offset + 1) = some slot ∧ slot.toNat < entry.signature.arity ∧
            (slot < chunk.maxLocals ↔ entry.signature.arity < 65536) := by
  constructor
  · have h : (Scope.empty.declareAll rs).Holds (Scope.empty.declared rs) :=
      Scope.holds_empty.declareAll rs
    have hlimit : (Scope.empty.declared rs).length ≤ 65536 := h.limit
    refine ⟨h.vars, fun i v => h.slots, h.names, h.lookup, hlimit, ?_, h.covers_iff⟩
    rw [h.toNat_maxLocals]
    omega
  · intro entry hentry
    obtain ⟨chunk, hchunk⟩ := Block.exists_code_of_mem hentry
    have hsized := Block.sizedFor_of_mem hentry hchunk
    obtain ⟨ms, hcode, -, hproper, -, -⟩ := hsized.code
    have harity : entry.signature.arity ≤ 65536 := hsized.arity
    have hmax : chunk.maxLocals.toNat = entry.signature.arity % 65536 := by
      rw [hsized.maxLocals, UInt16.toNat_ofNat']
    refine ⟨chunk, hchunk, harity, hmax, fun offset kind hload => ?_⟩
    obtain ⟨slot, hread, hslot⟩ := Chunk.slot_of_load hcode hload
    obtain ⟨m, hm, hinstr⟩ := List.mem_map.1 hslot
    have hlt : slot.toNat < entry.signature.arity := (hproper m hm).slot_lt hsized.arity hinstr
    refine ⟨slot, hread, hlt, ?_⟩
    rw [UInt16.lt_iff_toNat_lt, hmax]
    omega

/-- All slots can be taken, and the frame has room for none of them then. -/
theorem exists_frame_without_room :
    ∃ rs, (Scope.empty.declared rs).length = 65536 ∧ (Scope.empty.declareAll rs).maxLocals = 0 := by
  have hfull : (Scope.empty.declared (Scope.numbered 0 65536)).length = 65536 :=
    Scope.length_declared_numbered (Nat.le_refl Scope.slotLimit)
  have h : (Scope.empty.declareAll (Scope.numbered 0 65536)).Holds _ := Scope.holds_empty.declareAll _
  refine ⟨Scope.numbered 0 65536, hfull, UInt16.toNat_inj.1 ?_⟩
  rw [h.toNat_maxLocals, List.nil_append, hfull]
  rfl

end BlockCompiler

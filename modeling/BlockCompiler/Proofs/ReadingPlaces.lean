import BlockCompiler.Chunk.Decode
import Mathlib.Data.List.Sort

/-!
# Places of instructions

Code is read from its start, whatever its bytes are.  From the byte of an operation code reading goes on
behind the operand bytes, and from any other byte at the next one.  This file says which instructions are
listed in terms of the bytes alone.

* `Chunk.Reaches` are the places at which reading stands.
* `Chunk.mem_instructions_iff` says that the instructions at these places are listed, and
  `pairwise_decodeFrom` that they are listed in order.
* `Chunk.sublist_opcodes_iff` says which lists of operation codes are subsequences of the code.
-/

namespace BlockCompiler

/-! ## From place to place -/

namespace Chunk

variable {c : Chunk} {place place' : Nat}

/-- Where reading goes on from a place: behind the operand bytes of the instruction there, or at the next
byte if there is no instruction. -/
def next (c : Chunk) (place : Nat) : Nat :=
  match c.readOp? place with
  | some op => place + 1 + op.operandSize
  | none => place + 1

/-- The places at which reading stands. -/
inductive Reaches (c : Chunk) : Nat → Prop
  | start : Reaches c 0
  | next {place : Nat} (h : Reaches c place) (hplace : place < c.size) : Reaches c (c.next place)

theorem lt_next (c : Chunk) (place : Nat) : place < c.next place := by
  unfold next
  split <;> omega

/-- Reading makes one step after another from the start. -/
theorem Reaches.exists_iterate (h : c.Reaches place) : ∃ n, c.next^[n] 0 = place := by
  induction h with
  | start => exact ⟨0, rfl⟩
  | next _ _ ih =>
    obtain ⟨n, rfl⟩ := ih
    exact ⟨n + 1, Function.iterate_succ_apply' _ _ _⟩

/-- Reading stands nowhere between a place and the next one. -/
theorem Reaches.next_le (h : c.Reaches place) (h' : c.Reaches place') (hlt : place < place') :
    c.next place ≤ place' := by
  have hmono : StrictMono fun n => c.next^[n] 0 := strictMono_nat_of_lt_succ fun n => by
    simp only [Function.iterate_succ_apply']
    exact c.lt_next _
  obtain ⟨n, rfl⟩ := h.exists_iterate
  obtain ⟨m, rfl⟩ := h'.exists_iterate
  rw [← Function.iterate_succ_apply' c.next n 0]
  exact hmono.monotone (hmono.lt_iff_lt.1 hlt)

/-- From a place on there are the instruction at the place and those from the next place on. -/
theorem Reaches.later_iff {op : OpCode} (h : c.Reaches place) :
    (place ≤ place' ∧ c.Reaches place' ∧ c.readOp? place' = some op) ↔
      (place' = place ∧ c.readOp? place = some op) ∨
        (c.next place ≤ place' ∧ c.Reaches place' ∧ c.readOp? place' = some op) := by
  constructor
  · rintro ⟨hle, h', hop⟩
    rcases Nat.eq_or_lt_of_le hle with rfl | hlt
    · exact .inl ⟨rfl, hop⟩
    · exact .inr ⟨h.next_le h' hlt, h', hop⟩
  · rintro (⟨rfl, hop⟩ | ⟨hle, h', hop⟩)
    · exact ⟨Nat.le_refl _, h, hop⟩
    · exact ⟨(c.lt_next place).le.trans hle, h', hop⟩

end Chunk

/-! ## What is listed -/

/-- Nothing is listed before the bytes to pass over. -/
theorem le_of_mem_decodeFrom {offset skip : Nat} {bytes : List UInt8} {x : Nat × OpCode}
    (h : x ∈ decodeFrom offset skip bytes) : offset + skip ≤ x.1 := by
  fun_induction decodeFrom offset skip bytes with
  | case1 => cases h
  | case2 offset skip b rest ih =>
    have := ih h
    omega
  | case3 offset b rest op hop ih =>
    rcases List.mem_cons.1 h with rfl | h
    · exact Nat.le_refl _
    · have := ih h
      omega
  | case4 offset b rest hop ih =>
    have := ih h
    omega

/-- Instructions are listed in the order of their places. -/
theorem pairwise_decodeFrom (offset skip : Nat) (bytes : List UInt8) :
    (decodeFrom offset skip bytes).Pairwise (·.1 < ·.1) := by
  fun_induction decodeFrom offset skip bytes with
  | case1 => exact List.Pairwise.nil
  | case2 offset skip b rest ih => exact ih
  | case3 offset b rest op hop ih =>
    refine List.pairwise_cons.2 ⟨fun x hx => ?_, ih⟩
    have := le_of_mem_decodeFrom hx
    omega
  | case4 offset b rest hop ih => exact ih

namespace Chunk

variable {c : Chunk} {ops : List OpCode}

/-- What the first byte of the rest of the code says about its place. -/
theorem step_of_drop {offset : Nat} {b : UInt8} {rest : List UInt8}
    (h : c.code.toList.drop offset = b :: rest) : offset < c.size ∧
      c.code.toList.drop (offset + 1) = rest ∧ c.readOp? offset = OpCode.ofByte? b := by
  have hbyte : c.code.toList[offset]? = some b := by
    rw [← List.head?_drop, h, List.head?_cons]
  refine ⟨?_, by rw [← List.tail_drop, h, List.tail_cons], ?_⟩
  · rw [size, ← Array.length_toList]
    exact (List.getElem?_eq_some_iff.1 hbyte).1
  · rw [readOp?, ← Array.getElem?_toList, hbyte, Option.bind_some]

/-- Of the code from an offset on, what begins at the places that reading has yet to reach is listed. -/
theorem mem_decodeFrom_iff {offset skip place : Nat} {bytes : List UInt8} {op : OpCode}
    (hbytes : c.code.toList.drop offset = bytes) (hreach : c.Reaches (offset + skip)) :
    (place, op) ∈ decodeFrom offset skip bytes ↔
      offset + skip ≤ place ∧ c.Reaches place ∧ c.readOp? place = some op := by
  -- The next place is `offset + skip`, while the bytes go on from `offset`.
  fun_induction decodeFrom offset skip bytes with
  | case1 offset skip =>
    have hend : c.code.toList.length ≤ offset := List.drop_eq_nil_iff.1 hbytes
    refine iff_of_false List.not_mem_nil fun ⟨hplace, _, hop⟩ => ?_
    rw [readOp?, ← Array.getElem?_toList, List.getElem?_eq_none (by omega)] at hop
    cases hop
  | case2 offset skip b rest ih =>
    obtain ⟨-, htail, -⟩ := step_of_drop hbytes
    have hadd : offset + (skip + 1) = offset + 1 + skip := by omega
    rw [hadd] at hreach ⊢
    exact ih htail hreach
  | case3 offset b rest found hfound ih =>
    obtain ⟨hsize, htail, hread⟩ := step_of_drop hbytes
    rw [hfound] at hread
    rw [Nat.add_zero offset] at hreach ⊢
    have hnext : c.next offset = offset + 1 + found.operandSize := by rw [Chunk.next, hread]
    have hlater := ih htail (hnext ▸ hreach.next hsize)
    rw [hreach.later_iff, List.mem_cons, hlater, ← hnext, hread, Prod.mk.injEq, Option.some.injEq,
      eq_comm (a := op)]
  | case4 offset b rest hnone ih =>
    obtain ⟨hsize, htail, hread⟩ := step_of_drop hbytes
    rw [hnone] at hread
    rw [Nat.add_zero offset] at hreach ⊢
    have hnext : c.next offset = offset + 1 := by rw [Chunk.next, hread]
    have hlater := ih htail (hnext ▸ hreach.next hsize)
    rw [hreach.later_iff, hlater, ← hnext, hread]
    exact (or_iff_right fun h => nomatch h.2).symm

/-- What is listed begins at the places that reading reaches. -/
theorem mem_instructions_iff {place : Nat} {op : OpCode} :
    (place, op) ∈ c.instructions ↔ c.Reaches place ∧ c.readOp? place = some op := by
  rw [instructions, mem_decodeFrom_iff (List.drop_zero (l := c.code.toList)) .start]
  exact and_iff_right (Nat.zero_le place)

/-! ## Subsequences -/

/-- Operation codes that stand in this order at places that reading reaches. -/
def Holds (c : Chunk) (ops : List OpCode) : Prop :=
  ∃ places : List Nat, places.Pairwise (· < ·) ∧
    List.Forall₂ (fun place op => c.Reaches place ∧ c.readOp? place = some op) places ops

/-- The subsequences of the operation codes, in terms of the bytes. -/
theorem sublist_opcodes_iff : ops.Sublist c.opcodes ↔ c.Holds ops := by
  have hpairwise : c.instructions.Pairwise (·.1 < ·.1) := pairwise_decodeFrom 0 0 c.code.toList
  constructor
  · intro h
    obtain ⟨listed, hlisted, rfl⟩ := List.sublist_map_iff.1 h
    refine ⟨listed.map Prod.fst, List.pairwise_map.2 (hpairwise.sublist hlisted), ?_⟩
    rw [List.forall₂_map_left_iff, List.forall₂_map_right_iff, List.forall₂_same]
    exact fun x hx => mem_instructions_iff.1 (hlisted.subset hx)
  · rintro ⟨places, hplaces, hall⟩
    obtain ⟨hlength, hall⟩ := List.forall₂_iff_zip.1 hall
    have hfst : (places.zip ops).map Prod.fst = places := List.map_fst_zip hlength.le
    have hsnd : (places.zip ops).map Prod.snd = ops := List.map_snd_zip hlength.ge
    have hzip : (places.zip ops).Pairwise (·.1 < ·.1) := List.pairwise_map.1 (hfst.symm ▸ hplaces)
    have hsubset : places.zip ops ⊆ c.instructions := fun x hx => mem_instructions_iff.2 (hall hx)
    -- The order of the places leaves no choice of the order in which the pairs are listed.
    have : Std.Antisymm fun x y : Nat × OpCode => x.1 < y.1 := ⟨fun _ _ h h' => absurd h h'.asymm⟩
    have hnodup : (places.zip ops).Nodup := hzip.imp fun h heq => (heq ▸ h).ne rfl
    have hlisted : (places.zip ops).Sublist c.instructions :=
      List.sublist_of_subperm_of_pairwise (List.subperm_of_subset hnodup hsubset) hzip hpairwise
    exact hsnd ▸ hlisted.map Prod.snd

end Chunk

end BlockCompiler

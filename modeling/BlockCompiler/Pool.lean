import Std.Data.TreeMap
import BlockCompiler.Constant

/-!
# The constant pool

A `Pool` numbers the constants of a module in the order in which they are first added.  Adding a
constant that is already there, up to `Constant.Same`, gives its old number and changes nothing.

To find a constant quickly the pool keeps the positions of the constants with each fingerprint.
`Pool.mem_bucket_iff` says that these buckets hold exactly what they should, and the look-up lemmas
`Pool.same_of_find?` and `Pool.find?_eq_none_iff` speak of the constants alone.
-/

namespace BlockCompiler

/-- The constants of a module. -/
structure Pool where
  constants : Array Constant := #[]
  buckets : Std.TreeMap UInt64 (List Nat) := {}
  mem_bucket_iff : ∀ (k : UInt64) (i : Nat),
      i ∈ buckets.getD k [] ↔ ∃ c, constants[i]? = some c ∧ c.fingerprint = k := by
    intro k i; simp

namespace Pool

/-- The pool without constants. -/
def empty : Pool := {}

instance : EmptyCollection Pool := ⟨empty⟩
instance : Inhabited Pool := ⟨empty⟩

/-- The number of constants. -/
def size (p : Pool) : Nat := p.constants.size

/-- Whether there are no constants. -/
def isEmpty (p : Pool) : Bool := p.constants.isEmpty

/-- The constant with a number. -/
def get? (p : Pool) (i : Nat) : Option Constant := p.constants[i]?

/-- Whether the constant with a number is the same as `c`. -/
def holds (p : Pool) (c : Constant) (i : Nat) : Bool :=
  match p.constants[i]? with
  | some d => decide (Constant.Same d c)
  | none => false

/-- The number of a constant that is the same as `c`. -/
def find? (p : Pool) (c : Constant) : Option Nat :=
  (p.buckets.getD c.fingerprint []).find? (p.holds c)

/-- Appends a constant that is not there yet. -/
def push (p : Pool) (c : Constant) : Pool :=
  let bucket := p.constants.size :: p.buckets.getD c.fingerprint []
  { constants := p.constants.push c
    buckets := p.buckets.insert c.fingerprint bucket
    mem_bucket_iff := by
      intro k i
      rw [Std.TreeMap.getD_insert]
      split
      next heq =>
        have hk : c.fingerprint = k := Std.LawfulEqCmp.eq_of_compare heq
        subst hk
        simp only [bucket, List.mem_cons, p.mem_bucket_iff, Array.getElem?_push]
        constructor
        · rintro (rfl | ⟨d, hd, hf⟩)
          · exact ⟨c, by simp, rfl⟩
          · have hlt := (Array.getElem?_eq_some_iff.1 hd).1
            exact ⟨d, by simp [Nat.ne_of_lt hlt, hd], hf⟩
        · rintro ⟨d, hd, hf⟩
          split at hd
          · exact .inl ‹_›
          · exact .inr ⟨d, hd, hf⟩
      next hne =>
        have hk : c.fingerprint ≠ k := fun h => hne (by rw [h]; exact Std.ReflCmp.compare_self)
        rw [p.mem_bucket_iff]
        simp only [Array.getElem?_push]
        constructor
        · rintro ⟨d, hd, hf⟩
          have hlt := (Array.getElem?_eq_some_iff.1 hd).1
          exact ⟨d, by simp [Nat.ne_of_lt hlt, hd], hf⟩
        · rintro ⟨d, hd, hf⟩
          split at hd
          · exact absurd (Option.some.inj hd ▸ hf) hk
          · exact ⟨d, hd, hf⟩ }

/-- Adds a constant and returns its number. -/
def add (p : Pool) (c : Constant) : Pool × Nat :=
  match p.find? c with
  | some i => (p, i)
  | none =>
    let i := p.size
    (p.push c, i)

/-! ## Look-up -/

/-- What is found is the same constant. -/
theorem same_of_find? {p : Pool} {c : Constant} {i : Nat} (h : p.find? c = some i) :
    ∃ d, p.get? i = some d ∧ Constant.Same d c := by
  have := List.find?_some h
  unfold holds at this
  split at this
  next d hd => exact ⟨d, hd, by simpa using this⟩
  next => simp at this

/-- Nothing is found exactly when no constant is the same. -/
theorem find?_eq_none_iff {p : Pool} {c : Constant} :
    p.find? c = none ↔ ∀ (i : Nat) (d : Constant), p.get? i = some d → ¬Constant.Same d c := by
  unfold find? get?
  rw [List.find?_eq_none]
  constructor
  · intro h i d hd hs
    have := h i ((p.mem_bucket_iff _ _).2 ⟨d, hd, hs.fingerprint_eq⟩)
    simp [holds, hd, hs] at this
  · intro h i hi hc
    obtain ⟨d, hd, _⟩ := (p.mem_bucket_iff _ _).1 hi
    simp only [holds, hd, decide_eq_true_eq] at hc
    exact h i d hd hc

/-! ## Addition -/

theorem get?_push (p : Pool) (c : Constant) (i : Nat) :
    (p.push c).get? i = if i = p.size then some c else p.get? i :=
  Array.getElem?_push

@[simp] theorem size_push (p : Pool) (c : Constant) : (p.push c).size = p.size + 1 := by
  simp [size, push]

/-- A constant that is there keeps its number, and the pool is unchanged. -/
theorem add_of_find? {p : Pool} {c : Constant} {i : Nat} (h : p.find? c = some i) :
    p.add c = (p, i) := by
  simp [add, h]

/-- A new constant is appended. -/
theorem add_of_not_find? {p : Pool} {c : Constant} (h : p.find? c = none) :
    p.add c = (p.push c, p.size) := by
  simp [add, h]

end Pool

end BlockCompiler

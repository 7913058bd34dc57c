import Mathlib.Data.List.Find
import BlockCompiler.Pool

/-!
# Interning

The pool of a module only grows.  This file says what that means for the numbers that code was given
earlier, and what a sequence of additions to the empty pool can reach.

* `Pool.GrowsTo p q` says that `q` keeps what `p` knows: the constant behind each number, and the
  number that each constant is found under.  `Pool.growsTo_add` is the step and
  `Pool.growsTo_addAll` the run.
* `Pool.find?_add` says that a constant is found under the number that adding it returned.
* `Pool.Distinct` says that no two numbers stand for the same constant.  `Pool.distinct_addAll` gives
  it for every pool that additions reach.
-/

namespace BlockCompiler

namespace Pool

/-! ## Look-up after an addition -/

private theorem holds_push_of_mem {p : Pool} {c d : Constant} {k : UInt64} {i : Nat}
    (hi : i ∈ p.buckets.getD k []) : (p.push c).holds d i = p.holds d i := by
  obtain ⟨x, hx, _⟩ := (p.mem_bucket_iff k i).1 hi
  have hlt : i < p.constants.size := (Array.getElem?_eq_some_iff.1 hx).1
  have hget : (p.push c).constants[i]? = p.constants[i]? := by
    simp only [push, Array.getElem?_push]
    rw [if_neg (Nat.ne_of_lt hlt)]
  simp only [holds, hget]

private theorem find?_bucket_push {p : Pool} {c d : Constant} (k : UInt64) :
    (p.buckets.getD k []).find? ((p.push c).holds d) =
      (p.buckets.getD k []).find? (p.holds d) := by
  refine List.find?_congr fun i hi => ?_
  exact holds_push_of_mem hi

private theorem holds_push_size {p : Pool} {c d : Constant} :
    (p.push c).holds d p.size = decide (Constant.Same c d) := by
  have hget : (p.push c).constants[p.size]? = some c := by simp [push, size]
  simp only [holds, hget]

/-- A constant that was appended is found at the end. -/
theorem find?_push_self (p : Pool) (c : Constant) : (p.push c).find? c = some p.size := by
  have hbucket : (p.push c).buckets.getD c.fingerprint [] =
      p.size :: p.buckets.getD c.fingerprint [] := by
    simp [push, size]
  have hholds : (p.push c).holds c p.size = true := by
    rw [holds_push_size]
    simp [Constant.Same.refl]
  rw [find?, hbucket, List.find?_cons, hholds]

/-- Appending a constant does not change where another one is found. -/
theorem find?_push_of_not_same {p : Pool} {c d : Constant} (h : ¬Constant.Same c d) :
    (p.push c).find? d = p.find? d := by
  unfold find?
  by_cases hk : c.fingerprint = d.fingerprint
  · have hbucket : (p.push c).buckets.getD d.fingerprint [] =
        p.size :: p.buckets.getD d.fingerprint [] := by
      simp [push, size, hk]
    have hholds : (p.push c).holds d p.size = false := by
      rw [holds_push_size]
      simpa using h
    rw [hbucket, List.find?_cons, hholds]
    exact find?_bucket_push _
  · have hbucket : (p.push c).buckets.getD d.fingerprint [] =
        p.buckets.getD d.fingerprint [] := by
      simp [push, Std.TreeMap.getD_insert, hk]
    rw [hbucket]
    exact find?_bucket_push _

/-- A constant is found under the number that adding it returned. -/
theorem find?_add (p : Pool) (c : Constant) : (p.add c).1.find? c = some (p.add c).2 := by
  cases h : p.find? c with
  | some i => rw [add_of_find? h]; exact h
  | none => rw [add_of_not_find? h]; exact find?_push_self p c

/-- What is found has a number below the size. -/
theorem lt_size_of_find? {p : Pool} {c : Constant} {i : Nat} (h : p.find? c = some i) :
    i < p.size := by
  obtain ⟨d, hd, _⟩ := same_of_find? h
  exact (Array.getElem?_eq_some_iff.1 hd).1

/-! ## Growth -/

/-- The pool `q` keeps the numbers of `p`. -/
structure GrowsTo (p q : Pool) : Prop where
  get? : ∀ {i c}, p.get? i = some c → q.get? i = some c
  find? : ∀ {c i}, p.find? c = some i → q.find? c = some i

@[refl] theorem GrowsTo.refl (p : Pool) : p.GrowsTo p := ⟨id, id⟩

theorem GrowsTo.trans {p q r : Pool} (h : p.GrowsTo q) (h' : q.GrowsTo r) : p.GrowsTo r :=
  ⟨fun hi => h'.get? (h.get? hi), fun hi => h'.find? (h.find? hi)⟩

/-- A pool grows by an addition. -/
theorem growsTo_add (p : Pool) (c : Constant) : p.GrowsTo (p.add c).1 := by
  cases h : p.find? c with
  | some i => rw [add_of_find? h]
  | none =>
    rw [add_of_not_find? h]
    refine ⟨fun {i d} hi => ?_, fun {d i} hd => ?_⟩
    · have hlt : i < p.size := (Array.getElem?_eq_some_iff.1 hi).1
      rw [get?_push, if_neg (Nat.ne_of_lt hlt)]
      exact hi
    · rw [find?_push_of_not_same]
      · exact hd
      · intro hs
        obtain ⟨e, he, hsame⟩ := same_of_find? hd
        exact find?_eq_none_iff.1 h i e he (hsame.trans hs.symm)

/-- The pool after the constants of a list were added in turn. -/
def addAll (p : Pool) (cs : List Constant) : Pool := cs.foldl (fun p c => (p.add c).1) p

/-- A pool grows by any additions. -/
theorem growsTo_addAll (p : Pool) (cs : List Constant) : p.GrowsTo (p.addAll cs) := by
  induction cs generalizing p with
  | nil => exact .refl p
  | cons c cs ih => exact (growsTo_add p c).trans (ih _)

/-! ## Distinct constants -/

/-- No two numbers stand for the same constant. -/
def Distinct (p : Pool) : Prop :=
  ∀ (i j : Nat) (c d : Constant),
    p.get? i = some c → p.get? j = some d → Constant.Same c d → i = j

theorem distinct_empty : empty.Distinct := by
  intro i j c d hi
  simp [empty, get?] at hi

/-- An addition keeps the constants distinct. -/
theorem Distinct.add {p : Pool} (h : p.Distinct) (c : Constant) : (p.add c).1.Distinct := by
  cases hf : p.find? c with
  | some i => rw [add_of_find? hf]; exact h
  | none =>
    rw [add_of_not_find? hf]
    have hnew := find?_eq_none_iff.1 hf
    intro i j x y hi hj hs
    rw [get?_push] at hi hj
    split at hi <;> split at hj
    · omega
    · obtain rfl := Option.some.inj hi
      exact absurd hs.symm (hnew j y hj)
    · obtain rfl := Option.some.inj hj
      exact absurd hs (hnew i x hi)
    · exact h i j x y hi hj hs

/-- Additions keep the constants distinct. -/
theorem Distinct.addAll {p : Pool} (h : p.Distinct) (cs : List Constant) :
    (p.addAll cs).Distinct := by
  induction cs generalizing p with
  | nil => exact h
  | cons c cs ih => exact ih (h.add c)

/-- A pool that additions reach has distinct constants. -/
theorem distinct_addAll (cs : List Constant) : (empty.addAll cs).Distinct :=
  distinct_empty.addAll cs

end Pool

end BlockCompiler

import BlockCompiler.Proofs.StoredReals

/-!
# The history of a pool

Earlier functions, functions under compilation and their wrappers hold numbers of one pool while others add
to it.  This file says what a pool is after any additions, and what the numbers are worth that were returned
on the way.  Outside of the pool a number is a word of 32 bits.

* `Constant.firsts` lists of all constants that are the same the first, and `Pool.constants_addAll` says
  that this list is the pool.
* `Pool.wordsOf` are the numbers that additions return.  `Pool.exists_wordsOf` says that the pool knows each
  constant under its number at once, so that growth does the rest.
* `Constant.same_iff` says which constants are the same.

`pool_history` is the result.
-/

namespace BlockCompiler

/-! ## First occurrences -/

namespace Constant

/-- Constants are the same if they are equal, or reals of which neither is a number, or zeros. -/
theorem same_iff {c d : Constant} :
    Same c d ↔ c = d ∨ ∃ x y, c = .real x ∧ d = .real y ∧
      (x.isNaN = true ∧ y.isNaN = true ∨ x.isZero = true ∧ y.isZero = true) := by
  constructor
  · intro h
    by_cases hd : ∃ y, d = .real y
    · obtain ⟨y, rfl⟩ := hd
      cases c with
      | real x =>
        rcases same_real_iff.1 h with (rfl | hnan) | hzero
        · exact .inl rfl
        · exact .inr ⟨x, y, rfl, rfl, .inl hnan⟩
        · exact .inr ⟨x, y, rfl, rfl, .inr hzero⟩
      | _ => cases h
    · exact .inl (h.eq_of_ne_real fun x hx => hd ⟨x, hx⟩)
  · rintro (rfl | ⟨x, y, rfl, rfl, hnan | hzero⟩)
    · rfl
    · exact same_real_iff.2 (.inl (.inr hnan))
    · exact same_real_iff.2 (.inr hzero)

/-- Of all constants of a list that are the same, the first. -/
def firsts : List Constant → List Constant
  | [] => []
  | c :: cs => c :: (firsts cs).filter fun d => ¬Same c d

theorem firsts_subset : ∀ cs : List Constant, firsts cs ⊆ cs
  | [], _, h => h
  | c :: cs, d, h => by
    rcases List.mem_cons.1 h with rfl | h
    · exact List.mem_cons_self
    · exact List.mem_cons_of_mem c (firsts_subset cs (List.mem_of_mem_filter h))

/-- Each constant is there in some form. -/
theorem exists_mem_firsts {c : Constant} : ∀ {cs : List Constant}, c ∈ cs → ∃ d ∈ firsts cs, Same d c
  | b :: cs, h => by
    by_cases hb : Same b c
    · exact ⟨b, List.mem_cons_self, hb⟩
    · rcases List.mem_cons.1 h with rfl | h
      · exact absurd (Same.refl c) hb
      · obtain ⟨d, hd, hsame⟩ := exists_mem_firsts h
        refine ⟨d, List.mem_cons_of_mem b (List.mem_filter.2 ⟨hd, ?_⟩), hsame⟩
        exact decide_eq_true fun hbd => hb (hbd.trans hsame)

theorem pairwise_firsts : ∀ cs : List Constant, (firsts cs).Pairwise fun c d => ¬Same c d
  | [] => .nil
  | c :: cs => by
    refine .cons (fun d hd => ?_) ((pairwise_firsts cs).filter _)
    exact of_decide_eq_true (List.mem_filter.1 hd).2

/-- One more constant comes last, unless it is there. -/
theorem firsts_concat (c : Constant) : ∀ cs : List Constant,
    firsts (cs ++ [c]) = if ∃ d ∈ firsts cs, Same d c then firsts cs else firsts cs ++ [c]
  | [] => by simp [firsts]
  | b :: cs => by
    rw [List.cons_append, firsts, firsts_concat c cs, firsts]
    by_cases hb : Same b c
    · have hthere : ∃ d ∈ b :: (firsts cs).filter fun d => ¬Same b d, Same d c :=
        ⟨b, List.mem_cons_self, hb⟩
      rw [if_pos hthere]
      -- Whether or not `c` is among the others, it is not there after `b`.
      split
      · rfl
      · simp [hb]
    · by_cases hc : ∃ d ∈ firsts cs, Same d c
      · obtain ⟨d, hd, hsame⟩ := hc
        have hbd : ¬Same b d := fun hbd => hb (hbd.trans hsame)
        rw [if_pos ⟨d, hd, hsame⟩, if_pos]
        exact ⟨d, List.mem_cons_of_mem b (List.mem_filter.2 ⟨hd, decide_eq_true hbd⟩), hsame⟩
      · rw [if_neg hc, if_neg]
        · simp [hb]
        · rintro ⟨d, hd, hsame⟩
          rcases List.mem_cons.1 hd with rfl | hd
          · exact hb hsame
          · exact hc ⟨d, List.mem_of_mem_filter hd, hsame⟩

end Constant

namespace Pool

open Constant (firsts)

/-! ## What the pool is -/

theorem get?_eq (p : Pool) (i : Nat) : p.get? i = p.constants.toList[i]? :=
  (Array.getElem?_toList).symm

theorem mem_constants_iff {p : Pool} {d : Constant} :
    d ∈ p.constants.toList ↔ ∃ i, p.get? i = some d := by
  simp only [get?_eq, List.mem_iff_getElem?]

/-- A constant is new just if no stored one is the same. -/
theorem find?_eq_none_iff_constants {p : Pool} {c : Constant} :
    p.find? c = none ↔ ∀ d ∈ p.constants.toList, ¬Constant.Same d c := by
  rw [find?_eq_none_iff]
  constructor
  · intro h d hd
    obtain ⟨i, hi⟩ := mem_constants_iff.1 hd
    exact h i d hi
  · intro h i d hi
    exact h d (mem_constants_iff.2 ⟨i, hi⟩)

theorem constants_push (p : Pool) (c : Constant) :
    (p.push c).constants.toList = p.constants.toList ++ [c] :=
  Array.toList_push

/-- A pool consists of the first of all constants that are the same, in the order of their addition. -/
theorem constants_addAll (cs : List Constant) : (empty.addAll cs).constants.toList = firsts cs := by
  induction cs using List.reverseRecOn with
  | nil => rfl
  | append_singleton cs c ih =>
    rw [addAll_concat, Constant.firsts_concat]
    cases hfind : (empty.addAll cs).find? c with
    | some i =>
      obtain ⟨d, hd, hsame⟩ := same_of_find? hfind
      rw [add_of_find? hfind, if_pos, ih]
      exact ⟨d, ih ▸ mem_constants_iff.2 ⟨i, hd⟩, hsame⟩
    | none =>
      have hnew := find?_eq_none_iff_constants.1 hfind
      rw [ih] at hnew
      rw [add_of_not_find? hfind, if_neg, constants_push, ih]
      rintro ⟨d, hd, hsame⟩
      exact hnew d hd hsame

theorem size_addAll (cs : List Constant) : (empty.addAll cs).size = (firsts cs).length := by
  rw [size, ← Array.length_toList, constants_addAll]

/-- A constant is known by the number of a stored one that is the same, as no other number has such a one. -/
theorem Distinct.find?_of_get? {p : Pool} (h : p.Distinct) {c d : Constant} {i : Nat}
    (hd : p.get? i = some d) (hsame : Constant.Same d c) : p.find? c = some i := by
  cases hfind : p.find? c with
  | some j =>
    obtain ⟨e, he, hsame'⟩ := same_of_find? hfind
    rw [h j i e d he hd (hsame'.trans hsame.symm)]
  | none => exact absurd hsame (find?_eq_none_iff.1 hfind i d hd)

/-- Constants are known by one number just if they are the same. -/
theorem find?_eq_iff {p : Pool} {c d : Constant} {i j : Nat} (hi : p.find? c = some i)
    (hj : p.find? d = some j) : i = j ↔ Constant.Same c d := by
  constructor
  · rintro rfl
    obtain ⟨e, he, hsame⟩ := same_of_find? hi
    obtain ⟨e', he', hsame'⟩ := same_of_find? hj
    obtain rfl := Option.some.inj (he.symm.trans he')
    exact hsame.symm.trans hsame'
  · intro hsame
    rw [find?_congr hsame, hj] at hi
    exact (Option.some.inj hi).symm

/-! ## Numbers as words -/

/-- Adds a constant and returns its number as a word. -/
def addWord (p : Pool) (c : Constant) : Pool × UInt32 := ((p.add c).1, UInt32.ofNat (p.add c).2)

/-- The constant whose number is a word. -/
def getWord? (p : Pool) (i : UInt32) : Option Constant := p.get? i.toNat

/-- The words that adding constants in turn returns. -/
def wordsOf (p : Pool) : List Constant → List UInt32
  | [] => []
  | c :: cs => (p.addWord c).2 :: wordsOf (p.addWord c).1 cs

theorem getElem?_wordsOf {c : Constant} {cs : List Constant} {k : Nat} (hc : cs[k]? = some c) (p : Pool) :
    (p.wordsOf cs)[k]? = some ((p.addAll (cs.take k)).addWord c).2 := by
  induction cs generalizing k p with
  | nil => cases hc
  | cons b cs ih =>
    cases k with
    | zero =>
      obtain rfl := Option.some.inj hc
      rfl
    | succ k => exact ih (List.getElem?_cons_succ ▸ hc) (p.add b).1

variable {cs : List Constant}

/-- The pool knows a constant by the number that adding it returned, right away. -/
theorem exists_wordsOf {c : Constant} {k : Nat} (hc : cs[k]? = some c) :
    ∃ n, (empty.wordsOf cs)[k]? = some (UInt32.ofNat n) ∧
      (empty.addAll (cs.take (k + 1))).find? c = some n := by
  refine ⟨_, getElem?_wordsOf hc empty, ?_⟩
  rw [List.take_add_one, hc, Option.toList_some, addAll_concat]
  exact find?_add _ c

/-- Later on it knows the constant by that number too. -/
theorem find?_addAll {c : Constant} {k n : Nat}
    (hn : (empty.addAll (cs.take (k + 1))).find? c = some n) : (empty.addAll cs).find? c = some n := by
  have hgrows := growsTo_addAll (empty.addAll (cs.take (k + 1))) (cs.drop (k + 1))
  rw [← addAll_append, List.take_append_drop] at hgrows
  exact hgrows.find? hn

/-- A number is a word as long as the constants can be counted with words. -/
theorem toNat_word {p : Pool} {c : Constant} {n : Nat} (hp : p.size ≤ 2 ^ 32) (hn : p.find? c = some n) :
    (UInt32.ofNat n).toNat = n := by
  have hlt := lt_size_of_find? hn
  rw [UInt32.toNat_ofNat', Nat.mod_eq_of_lt (by omega)]

end Pool

/-- Additions to the empty pool, with fewer than 2^32 constants that are not the same.

The pool consists of the first of all constants that are the same, in the order in which they were added, and
no two in it are the same.  Each addition returned a number under which there is from then on, whatever is
added later, one constant that is the same as the one that was added.  Two additions returned one number just
if their constants are the same.  A constant that is the same as a stored one gets the number of that one and
changes nothing, and any other one is appended and gets the next number.  To be the same is to be equal, but
for reals: there all that are no numbers are the same, and the two zeros are. -/
theorem pool_history (cs : List Constant) (hcs : (Constant.firsts cs).length < 2 ^ 32) :
    let pool := Pool.empty.addAll cs
    let words := Pool.empty.wordsOf cs
    pool.constants.toList = Constant.firsts cs ∧
      (Constant.firsts cs).Pairwise (fun c d => ¬Constant.Same c d) ∧
      (∀ (k : Nat) (c : Constant), cs[k]? = some c →
        ∃ i d, words[k]? = some i ∧ Constant.Same d c ∧
          ∀ later, (Pool.empty.addAll (cs.take (k + 1) ++ later)).getWord? i = some d) ∧
      (∀ (k l : Nat) (c d : Constant) (i j : UInt32), cs[k]? = some c → cs[l]? = some d →
        words[k]? = some i → words[l]? = some j → (i = j ↔ Constant.Same c d)) ∧
      (∀ (i : UInt32) (c d : Constant), pool.getWord? i = some d → Constant.Same d c →
        pool.addWord c = (pool, i)) ∧
      (∀ c, (∀ d ∈ pool.constants.toList, ¬Constant.Same d c) →
        (pool.addWord c).1.constants.toList = pool.constants.toList ++ [c] ∧
          (pool.addWord c).2.toNat = pool.size) ∧
      ∀ c d, Constant.Same c d ↔ c = d ∨ ∃ x y, c = .real x ∧ d = .real y ∧
        (x.isNaN = true ∧ y.isNaN = true ∨ x.isZero = true ∧ y.isZero = true) := by
  intro pool words
  have hsize : pool.size ≤ 2 ^ 32 := by
    rw [Pool.size_addAll]
    omega
  refine ⟨Pool.constants_addAll cs, Constant.pairwise_firsts cs, fun k c hc => ?_,
    fun k l c d i j hc hd hi hj => ?_, fun i c d hi hsame => ?_, fun c hnew => ?_,
    fun c d => Constant.same_iff⟩
  · obtain ⟨n, hword, hn⟩ := Pool.exists_wordsOf hc
    obtain ⟨d, hd, hsame⟩ := Pool.same_of_find? hn
    refine ⟨_, d, hword, hsame, fun later => ?_⟩
    rw [Pool.getWord?, Pool.toNat_word hsize (Pool.find?_addAll hn), Pool.addAll_append]
    exact (Pool.growsTo_addAll _ later).get? hd
  · obtain ⟨n, hword, hn⟩ := Pool.exists_wordsOf hc
    obtain ⟨m, hword', hm⟩ := Pool.exists_wordsOf hd
    obtain rfl := Option.some.inj (hword.symm.trans hi)
    obtain rfl := Option.some.inj (hword'.symm.trans hj)
    rw [← Pool.find?_eq_iff (Pool.find?_addAll hn) (Pool.find?_addAll hm), ← UInt32.toNat_inj,
      Pool.toNat_word hsize (Pool.find?_addAll hn), Pool.toNat_word hsize (Pool.find?_addAll hm)]
  · have hfind : pool.find? c = some i.toNat := (Pool.distinct_addAll cs).find?_of_get? hi hsame
    rw [Pool.addWord, Pool.add_of_find? hfind, UInt32.ofNat_toNat]
  · have hfind : pool.find? c = none := Pool.find?_eq_none_iff_constants.2 hnew
    have hlt : pool.size < 2 ^ 32 := by rwa [Pool.size_addAll]
    rw [Pool.addWord, Pool.add_of_not_find? hfind]
    exact ⟨Pool.constants_push pool c, by rw [UInt32.toNat_ofNat', Nat.mod_eq_of_lt hlt]⟩

/-- One of each kind of constant, with what is the same as an earlier one in between. -/
def mixedConstants : List Constant :=
  [.int 100, .real ⟨0⟩, .int 100, .function ⟨7⟩, .bound ⟨⟨7⟩, "f", .fn [] .unit⟩, .real ⟨0x8000000000000000⟩,
    .string [1]]

theorem pool_history_mixedConstants :
    (Constant.firsts mixedConstants).length < 2 ^ 32 ∧
      (Pool.empty.addAll mixedConstants).constants.toList =
        [.int 100, .real ⟨0⟩, .function ⟨7⟩, .bound ⟨⟨7⟩, "f", .fn [] .unit⟩, .string [1]] ∧
      (Pool.empty.addAll mixedConstants).addWord (.real ⟨0⟩) = (Pool.empty.addAll mixedConstants, 1) := by
  have hlt : (Constant.firsts mixedConstants).length < 2 ^ 32 := by decide +kernel
  obtain ⟨hall, -, -, -, hagain, -⟩ := pool_history mixedConstants hlt
  have hfirsts : Constant.firsts mixedConstants =
      [.int 100, .real ⟨0⟩, .function ⟨7⟩, .bound ⟨⟨7⟩, "f", .fn [] .unit⟩, .string [1]] := by
    decide +kernel
  rw [hfirsts] at hall
  refine ⟨hlt, hall, hagain 1 _ (.real ⟨0⟩) ?_ (Constant.Same.refl _)⟩
  rw [Pool.getWord?, Pool.get?_eq, hall]
  rfl

end BlockCompiler

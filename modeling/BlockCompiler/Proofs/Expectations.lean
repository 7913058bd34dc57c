import BlockCompiler.Chunk.Expectation
import BlockCompiler.Proofs.ReadingPlaces
import BlockCompiler.Proofs.RealText

/-!
# What is missing from code

Code may be expected to contain a list of operation codes as a subsequence.  The check goes over the code
once and meets each expected operation code at the first chance.  This file says that no other way to find
the list gets further, and that the report of what is missing says so.

* `OpCode.meet` is one step of the check, and `OpCode.unmet_eq_foldl` says that the check is a loop.
* `OpCode.Leaves` is what holds after a part of the code: what is left of the expected list, behind the
  longest part that could be found.  `OpCode.Leaves.step` is the step, and `OpCode.Leaves.run` the loop.
* `Disappointment.message_injective` says that a report can be read in one way only.

`subsequence_expectation_exact` is the result.
-/

namespace BlockCompiler

namespace OpCode

variable {expected met read code rest other : List OpCode} {op : OpCode}

/-! ## One step after another -/

/-- One step of a check: an expected operation code that is met is taken off the front of the list. -/
def meet (rest : List OpCode) (op : OpCode) : List OpCode :=
  if rest.head? = some op then rest.tail else rest

/-- The check is a loop over the whole code. -/
theorem unmet_eq_foldl (expected code : List OpCode) : unmet expected code = code.foldl meet expected := by
  induction code generalizing expected with
  | nil => cases expected <;> rfl
  | cons op code ih =>
    rw [List.foldl_cons, ← ih]
    cases expected with
    | nil => cases code <;> rfl
    | cons e expected =>
      simp only [unmet, meet, List.head?_cons, List.tail_cons, Option.some.injEq]
      split <;> rfl

/-! ## The longest part that could be found -/

/-- This is the longest prefix of the expected list that is a subsequence of the code. -/
structure LongestMet (met expected code : List OpCode) : Prop where
  begins : met <+: expected
  found : met.Sublist code
  longest : ∀ other, other <+: expected → other.Sublist code → other.length ≤ met.length

/-- One more instruction adds one operation code at most, and only the next one. -/
theorem LongestMet.of_sublist_concat (h : LongestMet met expected read) (hother : other <+: expected)
    (hsub : other.Sublist (read ++ [op])) : other.length ≤ met.length ∨ other = met ++ [op] := by
  -- All but the last instruction were there before, where `front` is not longer than `met`.
  obtain ⟨front, last, rfl, hfront, hlast⟩ := List.sublist_append_iff.1 hsub
  have hbegins : front <+: expected := (List.prefix_append front last).trans hother
  have hle := h.longest front hbegins hfront
  rcases List.sublist_singleton.1 hlast with rfl | rfl
  · exact .inl (by rwa [List.append_nil])
  · rcases Nat.lt_or_ge front.length met.length with hlt | hge
    · exact .inl (by rwa [List.length_append])
    · have hmet : front <+: met := List.prefix_of_prefix_length_le hbegins h.begins hle
      exact .inr (by rw [hmet.eq_of_length (Nat.le_antisymm hle hge)])

/-- This is left of the expected list after some code: what is behind its longest prefix that is there. -/
def Leaves (expected code rest : List OpCode) : Prop :=
  ∃ met, met ++ rest = expected ∧ LongestMet met expected code

theorem leaves_nil (expected : List OpCode) : Leaves expected [] expected :=
  ⟨[], rfl, ⟨expected, rfl⟩, .slnil, fun _ _ h => by rw [List.sublist_nil.1 h]⟩

/-- What is left is what a step leaves. -/
theorem Leaves.step (h : Leaves expected read rest) (op : OpCode) :
    Leaves expected (read ++ [op]) (meet rest op) := by
  obtain ⟨met, rfl, hmet⟩ := h
  rw [meet]
  split
  next hhead =>
    obtain ⟨rest, rfl⟩ := List.head?_eq_some_iff.1 hhead
    refine ⟨met ++ [op], List.append_assoc .., ⟨rest, List.append_assoc ..⟩, hmet.found.append_right [op],
      fun other hother hsub => ?_⟩
    rcases hmet.of_sublist_concat hother hsub with hle | rfl
    · rw [List.length_append]
      omega
    · exact Nat.le_refl _
  next hhead =>
    refine ⟨met, rfl, hmet.begins, hmet.found.trans (List.sublist_append_left ..),
      fun other hother hsub => ?_⟩
    rcases hmet.of_sublist_concat hother hsub with hle | rfl
    · exact hle
    · obtain ⟨t, ht⟩ := (List.prefix_append_right_inj met).1 hother
      exact absurd (by rw [← ht, List.singleton_append, List.head?_cons]) hhead

/-- The invariant of the loop. -/
theorem Leaves.run (h : Leaves expected read rest) (code : List OpCode) :
    Leaves expected (read ++ code) (code.foldl meet rest) := by
  induction code generalizing read rest with
  | nil => rwa [List.append_nil]
  | cons op code ih =>
    rw [List.append_cons]
    exact ih (h.step op)

theorem leaves_unmet (expected code : List OpCode) : Leaves expected code (unmet expected code) := by
  rw [unmet_eq_foldl]
  exact (leaves_nil expected).run code

/-- Nothing is left of a subsequence, and of nothing else. -/
theorem Leaves.eq_nil_iff (h : Leaves expected code rest) : rest = [] ↔ expected.Sublist code := by
  obtain ⟨met, rfl, hmet⟩ := h
  constructor
  · rintro rfl
    rw [List.append_nil]
    exact hmet.found
  · intro hsub
    have hle := hmet.longest _ List.prefix_rfl hsub
    rw [List.length_append] at hle
    exact List.eq_nil_of_length_eq_zero (by omega)

/-! ## Reports -/

theorem name_injective : Function.Injective name := by
  have hfind (op : OpCode) : all.find? (·.name = op.name) = some op := by cases op <;> decide
  intro op op' h
  exact Option.some.inj ((hfind op).symm.trans (h ▸ hfind op'))

theorem quote_not_mem_name (op : OpCode) : '"' ∉ op.name.toList := by
  cases op <;> decide

/-- The characters of a listing behind one of its members. -/
def moreNames : List OpCode → List Char
  | [] => [']']
  | op :: ops => ',' :: ' ' :: '"' :: (op.name.toList ++ '"' :: moreNames ops)

/-- The characters of a listing behind the opening bracket. -/
def names : List OpCode → List Char
  | [] => [']']
  | op :: ops => '"' :: (op.name.toList ++ '"' :: moreNames ops)

theorem toList_intercalate_names (op : OpCode) (ops : List OpCode) :
    (", ".intercalate ((op :: ops).map fun op => "\"" ++ op.name ++ "\"")).toList ++ [']'] =
      '"' :: (op.name.toList ++ '"' :: moreNames ops) := by
  induction ops generalizing op with
  | nil => simp [String.intercalate_singleton, moreNames]
  | cons op' ops ih =>
    have hrest := ih op'
    rw [List.map_cons] at hrest ⊢
    rw [List.map_cons, String.intercalate_cons_cons, String.toList_append, List.append_assoc, hrest]
    simp [moreNames]

theorem toList_listing (ops : List OpCode) : (listing ops).toList = '[' :: names ops := by
  cases ops with
  | nil => rfl
  | cons op ops =>
    rw [listing, String.toList_append, String.toList_append, List.append_assoc]
    exact congrArg ('[' :: ·) (toList_intercalate_names op ops)

/-- The name of a member ends at the next quote, since no name has one. -/
theorem eq_of_name_append {op op' : OpCode} {r r' : List Char}
    (h : op.name.toList ++ '"' :: r = op'.name.toList ++ '"' :: r') : op = op' ∧ r = r' := by
  have hname := congrArg (List.takeWhile (· ≠ '"')) h
  have hrest := congrArg (List.dropWhile (· ≠ '"')) h
  rw [RealText.takeWhile_ne_append op.quote_not_mem_name,
    RealText.takeWhile_ne_append op'.quote_not_mem_name] at hname
  rw [RealText.dropWhile_ne_append op.quote_not_mem_name,
    RealText.dropWhile_ne_append op'.quote_not_mem_name] at hrest
  exact ⟨name_injective (String.toList_inj.1 hname), List.tail_eq_of_cons_eq hrest⟩

theorem eq_of_moreNames_append {ops ops' : List OpCode} {r r' : List Char}
    (h : moreNames ops ++ r = moreNames ops' ++ r') : ops = ops' ∧ r = r' := by
  induction ops generalizing ops' with
  | nil =>
    cases ops' with
    | nil => exact ⟨rfl, List.append_cancel_left h⟩
    | cons op' ops' => exact absurd (List.cons.inj h).1 (by decide)
  | cons op ops ih =>
    cases ops' with
    | nil => exact absurd (List.cons.inj h).1 (by decide)
    | cons op' ops' =>
      simp only [moreNames, List.cons_append, List.append_assoc, List.cons.injEq, true_and] at h
      obtain ⟨rfl, hrest⟩ := eq_of_name_append h
      obtain ⟨rfl, hr⟩ := ih hrest
      exact ⟨rfl, hr⟩

/-- A listing can be read from its start, whatever follows. -/
theorem eq_of_names_append {ops ops' : List OpCode} {r r' : List Char}
    (h : names ops ++ r = names ops' ++ r') : ops = ops' ∧ r = r' := by
  cases ops with
  | nil =>
    cases ops' with
    | nil => exact ⟨rfl, List.append_cancel_left h⟩
    | cons op' ops' => exact absurd (List.cons.inj h).1 (by decide)
  | cons op ops =>
    cases ops' with
    | nil => exact absurd (List.cons.inj h).1 (by decide)
    | cons op' ops' => exact eq_of_moreNames_append (congrArg ([',', ' '] ++ ·) h)

/-- A text of two listings begins with what is before the first bracket. -/
theorem first_eq_of_listings {first first' middle middle' : String} {ops ops' others others' : List OpCode}
    (hfirst : '[' ∉ first.toList) (hfirst' : '[' ∉ first'.toList)
    (h : first ++ listing ops ++ middle ++ listing others =
      first' ++ listing ops' ++ middle' ++ listing others') : first = first' := by
  have hchars := congrArg (fun s => s.toList.takeWhile (· ≠ '[')) h
  simp only [String.toList_append, toList_listing, List.append_assoc, List.cons_append,
    RealText.takeWhile_ne_append hfirst, RealText.takeWhile_ne_append hfirst'] at hchars
  exact String.toList_inj.1 hchars

/-- Listings in the same places of a text can be read. -/
theorem eq_of_listings {first middle : String} {ops ops' others others' : List OpCode}
    (h : first ++ listing ops ++ middle ++ listing others =
      first ++ listing ops' ++ middle ++ listing others') : ops = ops' ∧ others = others' := by
  have hchars := congrArg String.toList h
  simp only [String.toList_append, toList_listing, List.append_assoc, List.cons_append] at hchars
  have hnames := (List.cons.inj (List.append_cancel_left hchars)).2
  obtain ⟨rfl, hrest⟩ := eq_of_names_append hnames
  -- Nothing follows the second listing.
  have hlast := (List.cons.inj (List.append_cancel_left hrest)).2
  obtain ⟨rfl, -⟩ := eq_of_names_append (congrArg (· ++ []) hlast)
  exact ⟨rfl, rfl⟩

end OpCode

/-- A report can be read in one way only. -/
theorem Disappointment.message_injective : Function.Injective message := by
  intro d d' h
  cases d with
  | mismatch expected actual =>
    cases d' with
    | mismatch expected' actual' =>
      obtain ⟨rfl, rfl⟩ := OpCode.eq_of_listings h
      rfl
    | missing remaining actual' =>
      exact absurd (OpCode.first_eq_of_listings (by decide) (by decide) h) (by decide)
  | missing remaining actual =>
    cases d' with
    | mismatch expected actual' =>
      exact absurd (OpCode.first_eq_of_listings (by decide) (by decide) h) (by decide)
    | missing remaining' actual' =>
      obtain ⟨rfl, rfl⟩ := OpCode.eq_of_listings h
      rfl

/-! ## The result -/

namespace Chunk

variable {c : Chunk} {expected : List OpCode} {d : Disappointment}

/-- The check fails if anything is left, and with what is left. -/
theorem expectContains_eq_error_iff : c.expectContains expected = .error d ↔
    OpCode.unmet expected c.opcodes ≠ [] ∧ d = .missing (OpCode.unmet expected c.opcodes) c.opcodes := by
  rw [expectContains]
  cases OpCode.unmet expected c.opcodes with
  | nil => exact iff_of_false nofun fun h => h.1 rfl
  | cons e rest => rw [Except.error.injEq, eq_comm, and_iff_right (List.cons_ne_nil e rest)]

end Chunk

/-- The check for a subsequence is exact, whatever the bytes of a chunk are.

It fails just if the expected list is no subsequence of the operation codes that the chunk lists.  What is
then missing is the list without its longest prefix that is a subsequence, and no other disappointment has
the same report.

A list is such a subsequence just if its members stand, in order, at places that reading reaches. -/
theorem subsequence_expectation_exact (c : Chunk) (expected : List OpCode) :
    ((∃ d, c.expectContains expected = .error d) ↔ ¬expected.Sublist c.opcodes) ∧
      (∀ d, c.expectContains expected = .error d → ∃ met missing, met ++ missing = expected ∧
        OpCode.LongestMet met expected c.opcodes ∧ d = .missing missing c.opcodes ∧
        ∀ d' : Disappointment, d'.message = d.message → d' = d) ∧
      ∀ ops : List OpCode, ops.Sublist c.opcodes ↔ c.Holds ops := by
  have hleaves := OpCode.leaves_unmet expected c.opcodes
  refine ⟨?_, fun d hd => ?_, fun ops => Chunk.sublist_opcodes_iff⟩
  · rw [← hleaves.eq_nil_iff]
    constructor
    · rintro ⟨d, hd⟩
      exact (Chunk.expectContains_eq_error_iff.1 hd).1
    · intro hne
      exact ⟨_, Chunk.expectContains_eq_error_iff.2 ⟨hne, rfl⟩⟩
  · obtain ⟨-, hmissing⟩ := Chunk.expectContains_eq_error_iff.1 hd
    obtain ⟨met, happend, hmet⟩ := hleaves
    exact ⟨met, _, happend, hmet, hmissing, fun d' h => Disappointment.message_injective h⟩

/-- One drop of two is there, behind a byte that is no operation code.  All that is expected behind the other
one is missing as well, though some of it is there. -/
theorem subsequence_expectation_exact_missingDrop :
    let c : Chunk := { code := #[0, 9, 255, 5, 6, 18] }
    let expected : List OpCode := [.constant, .pop, .pop, .dup]
    c.expectContains expected = .error (.missing [.pop, .dup] [.constant, .pop, .dup, .bindFunction]) ∧
      OpCode.LongestMet [.constant, .pop] expected c.opcodes ∧
      c.Holds [.constant, .pop, .dup] ∧ ¬expected.Sublist c.opcodes := by
  intro c expected
  obtain ⟨hfails, hreports, hholds⟩ := subsequence_expectation_exact c expected
  have hd : c.expectContains expected =
    .error (.missing [.pop, .dup] [.constant, .pop, .dup, .bindFunction]) := rfl
  obtain ⟨met, missing, happend, hmet, hmissing, -⟩ := hreports _ hd
  obtain ⟨rfl, -⟩ := Disappointment.missing.inj hmissing
  obtain rfl : met = [.constant, .pop] := List.append_cancel_right happend
  exact ⟨hd, hmet, (hholds _).1 (by decide), hfails.1 ⟨_, hd⟩⟩

end BlockCompiler

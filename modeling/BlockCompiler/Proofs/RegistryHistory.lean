import Mathlib.Data.List.InsertIdx
import BlockCompiler.Proofs.Accounting
import BlockCompiler.Registry.Indexed

/-!
# The history of a registry

While functions are compiled inside of others, registrations are opened, closed and taken back in any order.
This file says what a registry is after any operations, with an index and without.

* `RegistryOp.act` says what an operation makes of an entry that is there, and `RegistryOp.opens` which entry it
  adds.  `Registry.entries_ordered` is the step made of both, and `Registry.entries_run` the run, in which
  `RegistryOp.standing` reads off the operations which entries are left.
* `IndexedRegistry.Exact` says that the index has the position of each name.  `IndexedRegistry.Exact.follows`
  says that an operation keeps this and does what it does without index, and `IndexedRegistry.run_indexed` that
  all operations do.

`registry_history` puts these together.
-/

namespace BlockCompiler

/-! ## Operations -/

/-- An operation on a registry. -/
inductive RegistryOp where
  | declare (s : Signature) (flags : EntryFlags) (span : Span)
  | define (name : String) (code : Chunk) (span : Span)
  | abandon (name : String)

/-- Whether an entry has a name and waits for its code. -/
def Entry.awaits (name : String) (e : Entry) : Prop := e.name = name ∧ e.isDefined = false

instance (name : String) (e : Entry) : Decidable (e.awaits name) :=
  inferInstanceAs (Decidable (_ ∧ _))

namespace RegistryOp

/-- The operation on a registry with an index. -/
def indexed : RegistryOp → Attempt IndexedRegistry Unit
  | declare s flags span => do
    let _ ← IndexedRegistry.declare s flags span
  | define name code span => IndexedRegistry.define name code span
  | abandon name => IndexedRegistry.abandon name

/-- The operation on a registry without. -/
def ordered : RegistryOp → Attempt Registry Unit
  | declare s flags span => .update (·.declare s flags span)
  | define name code span => .update (·.define name code span)
  | abandon name => .modify (·.abandon name)

/-- Carries out operations in turn, also after failures, and lists how they ended. -/
def run {σ : Type} (step : RegistryOp → Attempt σ Unit) :
    List RegistryOp → σ → List (Except CompileError Unit) × σ
  | [], s => ([], s)
  | op :: ops, s =>
    let (outcome, s) := step op s
    let (outcomes, s) := run step ops s
    (outcome :: outcomes, s)

/-- What an operation makes of an entry that is there: the entry with code, or none if it is taken back. -/
def act : RegistryOp → Entry → Option Entry
  | declare _ _ _, e => some e
  | define name code _, e => some (if e.awaits name then { e with code? := some code } else e)
  | abandon name, e => if e.awaits name then none else some e

/-- The entry that an operation adds if it ends in this way. -/
def opens : RegistryOp → Except CompileError Unit → Option Entry
  | declare s flags _, .ok () => some (.ofSignature s flags)
  | _, _ => none

/-- What operations make of an entry in turn. -/
def fate : List RegistryOp → Entry → Option Entry
  | [], e => some e
  | op :: ops, e => (op.act e).bind (fate ops)

/-- The entries that operations added, in order, with what the operations after that made of them. -/
def standing : List RegistryOp → List (Except CompileError Unit) → List Entry
  | op :: ops, outcome :: outcomes =>
    ((op.opens outcome).bind (fate ops)).toList ++ standing ops outcomes
  | _, _ => []

theorem act_of_isDefined (op : RegistryOp) {e : Entry} (he : e.isDefined = true) : op.act e = some e := by
  cases op <;> simp [act, Entry.awaits, he]

/-- An entry with code stays as it is. -/
theorem fate_of_isDefined {e : Entry} (he : e.isDefined = true) : ∀ ops, fate ops e = some e
  | [] => rfl
  | op :: ops => by rw [fate, act_of_isDefined op he, Option.bind_some, fate_of_isDefined he ops]

/-- Operations leave names alone. -/
theorem name_of_act {op : RegistryOp} {e e' : Entry} (h : op.act e = some e') : e'.name = e.name := by
  cases op with
  | declare => exact Option.some.inj h ▸ rfl
  | define =>
    obtain rfl := Option.some.inj h
    split <;> rfl
  | abandon =>
    simp only [act] at h
    split at h
    · cases h
    · exact Option.some.inj h ▸ rfl

theorem names_filterMap_act (op : RegistryOp) : ∀ es : List Entry,
    ((es.filterMap op.act).map Entry.name).Sublist (es.map Entry.name)
  | [] => .slnil
  | e :: es => by
    have ih := names_filterMap_act op es
    cases hact : op.act e with
    | none =>
      rw [List.filterMap_cons_none hact]
      exact ih.cons _
    | some e' =>
      rw [List.filterMap_cons_some hact, List.map_cons, List.map_cons, name_of_act hact]
      exact ih.cons_cons _

theorem act_of_not_awaits {e : Entry} {name : String} (he : ¬e.awaits name) :
    (∀ code span, act (define name code span) e = some e) ∧ act (abandon name) e = some e := by
  simp [act, he]

/-- Entries that an operation leaves alone stay. -/
theorem filterMap_act_eq_self {op : RegistryOp} {es : List Entry} (h : ∀ e ∈ es, op.act e = some e) :
    es.filterMap op.act = es := by
  rw [List.filterMap_congr h]
  exact List.filterMap_some

end RegistryOp

/-! ## Without index -/

namespace Registry

variable {r : Registry}

/-- Under the name of an entry without code, this entry waits. -/
theorem awaits_iff (h : r.names.Nodup) {name : String} {e : Entry} (hget : r.get? name = some e)
    (hopen : e.isDefined = false) {e' : Entry} (he' : e' ∈ r.entries) :
    e'.awaits name ↔ e'.name = name := by
  refine ⟨And.left, fun hname => ⟨hname, ?_⟩⟩
  have hfound := get?_of_mem h he'
  rw [hname, hget] at hfound
  rwa [← Option.some.inj hfound]

/-- Under a name that is free or whose entry has code, no entry waits. -/
theorem not_awaits (h : r.names.Nodup) {name : String}
    (hname : ∀ e, r.get? name = some e → e.isDefined = true) {e : Entry} (he : e ∈ r.entries) :
    ¬e.awaits name := by
  rintro ⟨rfl, hopen⟩
  have hdefined := hname e (get?_of_mem h he)
  rw [hopen] at hdefined
  cases hdefined

/-- Either an entry waits under a name, or code cannot be given and nothing is taken back. -/
theorem open_or_closed (h : r.names.Nodup) (name : String) :
    (∃ e, r.get? name = some e ∧ e.isDefined = false) ∨
      (∀ e ∈ r.entries, ¬e.awaits name) ∧
        (∀ code span, ∃ error, r.define name code span = .error error) ∧ r.abandon name = r := by
  cases hget : r.get? name with
  | none =>
    refine .inr ⟨fun e => not_awaits h (by simp [hget]), fun code span => ?_, ?_⟩
    · exact ⟨⟨.internal .undeclaredEntry name, span⟩, by simp [define, hget]⟩
    · simp [abandon, hget]
  | some e =>
    cases hdefined : e.isDefined with
    | true =>
      refine .inr ⟨fun e' => not_awaits h (by simp [hget, hdefined]), fun code span => ?_, ?_⟩
      · exact ⟨⟨.internal .entryDefinedTwice name, span⟩, by simp [define, hget, hdefined]⟩
      · simp [abandon, hget, hdefined]
    | false => exact .inl ⟨e, rfl, hdefined⟩

open RegistryOp (act opens ordered act_of_not_awaits filterMap_act_eq_self)

/-- An operation does to each entry what it does, and adds what it opens. -/
theorem entries_ordered (h : r.names.Nodup) (op : RegistryOp) :
    (op.ordered r).2.entries = r.entries.filterMap op.act ++ (op.opens (op.ordered r).1).toList := by
  cases op with
  | declare s flags span =>
    rw [filterMap_act_eq_self fun _ _ => rfl]
    by_cases hlisted : r.contains s.name
    · simp [ordered, Attempt.update, declare, hlisted, opens]
    · simp [ordered, Attempt.update, declare, hlisted, opens]
  | define name code span =>
    obtain ⟨e, hget, hopen⟩ | ⟨hnone, hfails, -⟩ := r.open_or_closed h name
    · have hattach : r.entries.filterMap (act (.define name code span)) = r.entries.map (attach name code) := by
        rw [← List.filterMap_eq_map]
        refine List.filterMap_congr fun e' he' => ?_
        simp [act, attach, awaits_iff h hget hopen he']
      simp [ordered, Attempt.update, define, hget, hopen, hattach, opens]
    · obtain ⟨error, hfails⟩ := hfails code span
      have hkeep := filterMap_act_eq_self fun e he => (act_of_not_awaits (hnone e he)).1 code span
      simp [ordered, Attempt.update, hfails, hkeep, opens]
  | abandon name =>
    obtain ⟨e, hget, hopen⟩ | ⟨hnone, -, hsame⟩ := r.open_or_closed h name
    · have hfilter : r.entries.filterMap (act (.abandon name)) = r.entries.filter (·.name ≠ name) := by
        rw [← List.filterMap_eq_filter]
        refine List.filterMap_congr fun e' he' => ?_
        simp only [act, awaits_iff h hget hopen he', Option.guard_apply]
        split <;> simp [*]
      simp [ordered, Attempt.modify, abandon, hget, hopen, hfilter, opens]
    · have hkeep := filterMap_act_eq_self fun e he => (act_of_not_awaits (hnone e he)).2
      simp [ordered, Attempt.modify, hsame, hkeep, opens]

theorem get?_of_opens {op : RegistryOp} {e : Entry} (he : op.opens (op.ordered r).1 = some e) :
    r.get? e.name = none := by
  cases op with
  | declare s flags span =>
    by_cases hlisted : r.contains s.name
    · simp [ordered, Attempt.update, declare, hlisted, opens] at he
    · simp only [ordered, Attempt.update, declare, hlisted, opens] at he
      obtain rfl := Option.some.inj he
      exact Option.not_isSome_iff_eq_none.1 hlisted
  | define => cases he
  | abandon => cases he

/-- Names stay different, as an operation opens an entry under a free name only. -/
theorem nodup_ordered (h : r.names.Nodup) (op : RegistryOp) : (op.ordered r).2.names.Nodup := by
  have hold : ((r.entries.filterMap op.act).map Entry.name).Nodup :=
    h.sublist (RegistryOp.names_filterMap_act op r.entries)
  rw [names, entries_ordered h op, List.map_append]
  cases hopens : op.opens (op.ordered r).1 with
  | none => simpa using hold
  | some e =>
    refine hold.append (List.nodup_singleton _) ?_
    simp only [Option.toList_some, List.map_cons, List.map_nil, List.disjoint_singleton]
    intro hmem
    exact not_mem_names_of_get? (get?_of_opens hopens)
      ((RegistryOp.names_filterMap_act op r.entries).subset hmem)

/-- Operations in turn do to each entry what they do, and add what then stands. -/
theorem entries_run (ops : List RegistryOp) : ∀ {r : Registry}, r.names.Nodup →
    (RegistryOp.run RegistryOp.ordered ops r).2.entries = r.entries.filterMap (RegistryOp.fate ops) ++
        RegistryOp.standing ops (RegistryOp.run RegistryOp.ordered ops r).1 ∧
      (RegistryOp.run RegistryOp.ordered ops r).2.names.Nodup := by
  induction ops with
  | nil =>
    intro r h
    have hfate : RegistryOp.fate [] = some := rfl
    exact ⟨by simp [RegistryOp.run, RegistryOp.standing, hfate], h⟩
  | cons op ops ih =>
    intro r h
    obtain ⟨hentries, hnodup⟩ := ih (nodup_ordered h op)
    refine ⟨?_, hnodup⟩
    -- What the first operation opened is old for the others, so they decide what becomes of it.
    have hfate : RegistryOp.fate (op :: ops) = fun e => (op.act e).bind (RegistryOp.fate ops) := rfl
    rw [RegistryOp.run, RegistryOp.standing, hentries, entries_ordered h op, List.filterMap_append,
      List.filterMap_filterMap, hfate, List.append_assoc]
    congr 2
    cases op.opens (op.ordered r).1 with
    | none => rfl
    | some e => cases hlater : RegistryOp.fate ops e <;> simp [hlater]

end Registry

/-! ## With index -/

namespace IndexedRegistry

/-- The entries, without index. -/
def toRegistry (r : IndexedRegistry) : Registry := ⟨r.toList⟩

/-- The index has the position of each name. -/
def Exact (r : IndexedRegistry) : Prop :=
  ∀ (name : String) (i : Nat), r.index[name]? = some i ↔ r.toRegistry.names[i]? = some name

/-- An operation keeps the index exact and does to the entries what it does without index. -/
def Follows (r : IndexedRegistry) (op : RegistryOp) : Prop :=
  (op.indexed r).2.Exact ∧ op.ordered r.toRegistry = ((op.indexed r).1, (op.indexed r).2.toRegistry)

theorem exact_empty : empty.Exact := by
  intro name i
  simp [empty, toRegistry, toList, Registry.names]

theorem getElem?_names {r : IndexedRegistry} {i : Nat} {name : String} :
    r.toRegistry.names[i]? = some name ↔ ∃ e, r.toList[i]? = some e ∧ e.name = name := by
  rw [Registry.names, List.getElem?_map, Option.map_eq_some_iff]
  rfl

/-- To filter out what is at one position is to remove the position. -/
theorem filter_eq_eraseIdx {α : Type} {p : α → Bool} : ∀ {l : List α} {i : Nat} {a : α},
    l[i]? = some a → p a = false → (∀ j b, l[j]? = some b → j ≠ i → p b = true) → l.filter p = l.eraseIdx i
  | a :: l, 0, _, ha, hpa, hp => by
    obtain rfl := Option.some.inj ha
    rw [List.filter_cons_of_neg (by simp [hpa]), List.eraseIdx_cons_zero, List.filter_eq_self]
    intro b hb
    obtain ⟨j, hj⟩ := List.mem_iff_getElem?.1 hb
    exact hp (j + 1) b hj (Nat.succ_ne_zero j)
  | b :: l, i + 1, _, ha, hpa, hp => by
    have hrest : ∀ j c, l[j]? = some c → j ≠ i → p c = true :=
      fun j c hc hji => hp (j + 1) c hc (by omega)
    have ha' : l[i]? = some _ := ha
    rw [List.filter_cons_of_pos (hp 0 b rfl (Nat.succ_ne_zero i).symm), List.eraseIdx_cons_succ,
      filter_eq_eraseIdx ha' hpa hrest]

/-- What is left after a removal was elsewhere, and has closed the gap. -/
theorem getElem?_eraseIdx_eq_some_iff {α : Type} {l : List α} {i j : Nat} {a : α} :
    (l.eraseIdx i)[j]? = some a ↔ ∃ k, k ≠ i ∧ l[k]? = some a ∧ closeGap i k = j := by
  rw [List.getElem?_eraseIdx]
  constructor
  · intro hj
    split at hj
    next hlt => exact ⟨j, by omega, hj, if_neg (by omega)⟩
    next hge => exact ⟨j + 1, by omega, hj, if_pos (by omega)⟩
  · rintro ⟨k, hki, hk, rfl⟩
    unfold closeGap
    split
    next hlt => rwa [if_neg (by omega), Nat.sub_add_cancel (by omega)]
    next hge => rwa [if_pos (by omega)]

namespace Exact

variable {r : IndexedRegistry} (h : r.Exact)

include h

/-- A name that had two positions would be in the index twice. -/
theorem nodup : r.toRegistry.names.Nodup := by
  rw [List.nodup_iff_getElem?_ne_getElem?]
  intro i j hij hj heq
  have hname := List.getElem?_eq_getElem hj
  have hi := (h _ i).2 (heq.trans hname)
  rw [(h _ j).2 hname] at hi
  exact absurd (Option.some.inj hi) (by omega)

theorem name_ne {i j : Nat} {e e' : Entry} (he : r.toList[i]? = some e) (he' : r.toList[j]? = some e')
    (hij : i ≠ j) : e'.name ≠ e.name := by
  intro hname
  have hi := (h e.name i).2 (getElem?_names.2 ⟨e, he, rfl⟩)
  rw [(h e.name j).2 (getElem?_names.2 ⟨e', he', hname⟩)] at hi
  exact hij (Option.some.inj hi).symm

/-- To give code to the entry with a name is to change the one at its position. -/
theorem map_attach {i : Nat} {e : Entry} (he : r.toList[i]? = some e) (code : Chunk) :
    r.toList.map (Registry.attach e.name code) = r.toList.set i { e with code? := some code } := by
  refine List.ext_getElem? fun j => ?_
  rw [List.getElem?_map, List.getElem?_set]
  by_cases hij : i = j
  · subst hij
    rw [if_pos rfl, if_pos (List.getElem?_eq_some_iff.1 he).1, he, Option.map_some, Registry.attach, if_pos rfl]
  · rw [if_neg hij]
    cases he' : r.toList[j]? with
    | none => rfl
    | some e' => rw [Option.map_some, Registry.attach_of_ne (h.name_ne he he' hij)]

/-- To remove the entries with the name of an entry is to remove what is at its position. -/
theorem filter_name {i : Nat} {e : Entry} (he : r.toList[i]? = some e) :
    r.toList.filter (·.name ≠ e.name) = r.toList.eraseIdx i := by
  refine filter_eq_eraseIdx he (by simp) fun j e' he' hji => ?_
  simpa using h.name_ne he he' (Ne.symm hji)

theorem find?_eq_some_iff {name : String} {i : Nat} {e : Entry} :
    r.find? name = some (i, e) ↔ r.toList[i]? = some e ∧ e.name = name := by
  have hentries : r.entries[i]? = r.toList[i]? := Array.getElem?_toList.symm
  constructor
  · intro hfind
    simp only [find?, Option.bind_eq_bind, Option.bind_eq_some_iff, Option.some.injEq, Prod.mk.injEq] at hfind
    obtain ⟨j, hj, e', he', rfl, rfl⟩ := hfind
    rw [hentries] at he'
    obtain ⟨e, he, hname⟩ := getElem?_names.1 ((h name j).1 hj)
    obtain rfl := Option.some.inj (he.symm.trans he')
    exact ⟨he, hname⟩
  · rintro ⟨he, hname⟩
    have hj := (h name i).2 (getElem?_names.2 ⟨e, he, hname⟩)
    simp [find?, hj, hentries, he]

/-- Look-up through the index is search. -/
theorem get?_eq (name : String) : r.get? name = r.toRegistry.get? name := by
  cases hget : r.toRegistry.get? name with
  | some e =>
    obtain ⟨i, hi⟩ := List.mem_iff_getElem?.1 (List.mem_of_find?_eq_some hget)
    rw [get?, h.find?_eq_some_iff.2 ⟨hi, Registry.name_of_get? hget⟩]
    rfl
  | none =>
    cases hfind : r.find? name with
    | none => rw [get?, hfind]; rfl
    | some found =>
      obtain ⟨he, hname⟩ := h.find?_eq_some_iff.1 (show r.find? name = some (found.1, found.2) from hfind)
      have hfound := Registry.get?_of_mem h.nodup (List.mem_of_getElem? he)
      rw [hname, hget] at hfound
      cases hfound

theorem contains_eq (name : String) : r.contains name = r.toRegistry.contains name := by
  rw [contains, Registry.contains, ← h.get?_eq, Std.TreeMap.contains_eq_isSome_getElem?, get?, find?]
  cases hindex : r.index[name]? with
  | none => rfl
  | some i =>
    obtain ⟨e, he, -⟩ := getElem?_names.1 ((h name i).1 hindex)
    have hentries : r.entries[i]? = some e := Array.getElem?_toList.symm.trans he
    simp [hentries]

/-- A name that is free gets the position at the end. -/
theorem push {e : Entry} (hfree : r.toRegistry.get? e.name = none) :
    Exact { entries := r.entries.push e, index := r.index.insert e.name r.entries.size } := by
  intro name i
  have hnames : (toRegistry { entries := r.entries.push e, index := r.index.insert e.name r.entries.size }).names =
      r.toRegistry.names ++ [e.name] := by
    simp [toRegistry, toList, Registry.names]
  have hlen : r.entries.size = r.toRegistry.names.length := by simp [toRegistry, toList, Registry.names]
  have hnot := Registry.not_mem_names_of_get? hfree
  rw [hnames, Std.TreeMap.getElem?_insert, hlen]
  by_cases hname : e.name = name
  · subst hname
    rw [if_pos (by simp), List.getElem?_append, List.getElem?_singleton]
    constructor
    · intro hi
      simp [← Option.some.inj hi]
    · intro hi
      split at hi
      · exact absurd (List.mem_of_getElem? hi) hnot
      · split at hi
        · congr 1
          omega
        · cases hi
  · rw [if_neg (by simpa using hname), h name i, List.getElem?_append, List.getElem?_singleton]
    split
    · rfl
    next hge => simp [List.getElem?_eq_none (Nat.le_of_not_lt hge), hname]

/-- An entry may change as long as its name stays. -/
theorem set {i : Nat} {e e' : Entry} (he : r.toList[i]? = some e) (hname : e'.name = e.name) :
    Exact { r with entries := r.entries.setIfInBounds i e' } := by
  have hnames : (toRegistry { r with entries := r.entries.setIfInBounds i e' }).names = r.toRegistry.names := by
    obtain ⟨hlt, hval⟩ := List.getElem?_eq_some_iff.1 (getElem?_names.2 ⟨e, he, rfl⟩)
    calc (toRegistry { r with entries := r.entries.setIfInBounds i e' }).names
        = r.toRegistry.names.set i e'.name := by simp [toRegistry, toList, Registry.names]
      _ = r.toRegistry.names := by rw [hname, ← hval, List.set_getElem_self]
  intro name j
  rw [hnames]
  exact h name j

/-- Without the name of the entry at position `i`, the index has the positions but `i`. -/
theorem getElem?_index_erase {i : Nat} {e : Entry} (he : r.toList[i]? = some e) (name : String) (k : Nat) :
    (r.index.erase e.name)[name]? = some k ↔ k ≠ i ∧ r.toRegistry.names[k]? = some name := by
  have hi : r.toRegistry.names[i]? = some e.name := getElem?_names.2 ⟨e, he, rfl⟩
  rw [Std.TreeMap.getElem?_erase, ← h name k]
  by_cases hname : e.name = name
  · subst hname
    rw [if_pos (by simp), (h e.name i).2 hi]
    simp only [reduceCtorEq, Option.some.injEq, false_iff]
    exact fun hk => hk.1 hk.2.symm
  · rw [if_neg (by simpa using hname), h name k]
    refine ⟨fun hk => ⟨?_, hk⟩, And.right⟩
    rintro rfl
    exact hname (Option.some.inj (hi.symm.trans hk))

/-- Positions behind an entry that is removed move up by one. -/
theorem erase {i : Nat} {e : Entry} (he : r.toList[i]? = some e) :
    Exact
      { entries := r.entries.eraseIdxIfInBounds i
        index := (r.index.erase e.name).map fun _ j => closeGap i j } := by
  intro name j
  have hnames : Registry.names (toRegistry
      { entries := r.entries.eraseIdxIfInBounds i
        index := (r.index.erase e.name).map fun _ j => closeGap i j }) = r.toRegistry.names.eraseIdx i := by
    simp [toRegistry, toList, Registry.names, List.eraseIdx_map]
  rw [hnames, Std.TreeMap.getElem?_map, Option.map_eq_some_iff, getElem?_eraseIdx_eq_some_iff]
  simp only [h.getElem?_index_erase he, and_assoc]

/-- A name is found at its position or nowhere, with index as without. -/
theorem find?_cases (name : String) :
    r.find? name = none ∧ r.toRegistry.get? name = none ∨
      ∃ i e, r.find? name = some (i, e) ∧ r.toRegistry.get? name = some e ∧
        r.toList[i]? = some e ∧ e.name = name := by
  have hget := h.get?_eq name
  rw [get?] at hget
  cases hfind : r.find? name with
  | none => exact .inl ⟨rfl, by rw [← hget, hfind]; rfl⟩
  | some found =>
    obtain ⟨i, e⟩ := found
    exact .inr ⟨i, e, rfl, by rw [← hget, hfind]; rfl, h.find?_eq_some_iff.1 hfind⟩

theorem follows_declare (s : Signature) (flags : EntryFlags) (span : Span) :
    r.Follows (.declare s flags span) := by
  have hcontains := h.contains_eq s.name
  cases hlisted : r.toRegistry.contains s.name with
  | true =>
    rw [hlisted] at hcontains
    simp [Follows, RegistryOp.indexed, RegistryOp.ordered, Attempt.update, Attempt.bind_run, declare,
      Registry.declare, hlisted, hcontains, h]
  | false =>
    rw [hlisted] at hcontains
    have hfree : r.toRegistry.get? s.name = none := by simpa [Registry.contains] using hlisted
    simp only [Follows, RegistryOp.indexed, RegistryOp.ordered, Attempt.update, Attempt.bind_run, declare,
      Registry.declare, hlisted, hcontains]
    exact ⟨h.push (e := .ofSignature s flags) hfree, by simp [toRegistry, toList]⟩

theorem follows_define (name : String) (code : Chunk) (span : Span) :
    r.Follows (.define name code span) := by
  obtain ⟨hfind, hget⟩ | ⟨i, e, hfind, hget, he, rfl⟩ := h.find?_cases name
  · simp [Follows, RegistryOp.indexed, RegistryOp.ordered, Attempt.update, define, Registry.define, hfind, hget, h]
  · cases hdefined : e.isDefined with
    | true =>
      simp [Follows, RegistryOp.indexed, RegistryOp.ordered, Attempt.update, define, Registry.define, hfind, hget,
        hdefined, h]
    | false =>
      simp only [Follows, RegistryOp.indexed, RegistryOp.ordered, Attempt.update, define, Registry.define, hfind,
        hget, hdefined]
      have hset := h.map_attach he code
      exact ⟨h.set he rfl, by simpa [toRegistry, toList] using hset⟩

theorem follows_abandon (name : String) : r.Follows (.abandon name) := by
  obtain ⟨hfind, hget⟩ | ⟨i, e, hfind, hget, he, rfl⟩ := h.find?_cases name
  · simp [Follows, RegistryOp.indexed, RegistryOp.ordered, Attempt.modify, abandon, Registry.abandon, hfind, hget, h]
  · cases hdefined : e.isDefined with
    | true =>
      simp [Follows, RegistryOp.indexed, RegistryOp.ordered, Attempt.modify, abandon, Registry.abandon, hfind,
        hget, hdefined, h]
    | false =>
      simp only [Follows, RegistryOp.indexed, RegistryOp.ordered, Attempt.modify, abandon, Registry.abandon, hfind,
        hget, hdefined]
      have herase := h.filter_name he
      exact ⟨h.erase he, by simpa [toRegistry, toList] using herase⟩

theorem follows (op : RegistryOp) : r.Follows op := by
  cases op with
  | declare s flags span => exact h.follows_declare s flags span
  | define name code span => exact h.follows_define name code span
  | abandon name => exact h.follows_abandon name

end Exact

/-- The index stays exact, and entries and outcomes are those without index. -/
theorem run_indexed (ops : List RegistryOp) : ∀ {r : IndexedRegistry}, r.Exact →
    (RegistryOp.run RegistryOp.indexed ops r).2.Exact ∧
      RegistryOp.run RegistryOp.ordered ops r.toRegistry =
        ((RegistryOp.run RegistryOp.indexed ops r).1, (RegistryOp.run RegistryOp.indexed ops r).2.toRegistry) := by
  induction ops with
  | nil => exact fun h => ⟨h, rfl⟩
  | cons op ops ih =>
    intro r h
    obtain ⟨hexact, hstep⟩ := h.follows op
    obtain ⟨hexact', hrun⟩ := ih hexact
    refine ⟨hexact', ?_⟩
    simp only [RegistryOp.run, hstep, hrun]

theorem abandon_fst (r : IndexedRegistry) (name : String) : (r.abandon name).1 = .ok () := by
  unfold abandon
  split
  · rfl
  · split <;> rfl

/-- A failed operation changes nothing. -/
theorem indexed_of_error {r : IndexedRegistry} {op : RegistryOp} {e : CompileError}
    (h : (op.indexed r).1 = .error e) : (op.indexed r).2 = r := by
  cases op with
  | declare s flags span =>
    by_cases hlisted : r.contains s.name
    · simp [RegistryOp.indexed, Attempt.bind_run, declare, hlisted]
    · simp [RegistryOp.indexed, Attempt.bind_run, declare, hlisted] at h
  | define name code span =>
    cases hfind : r.find? name with
    | none => simp [RegistryOp.indexed, define, hfind]
    | some found =>
      by_cases hdefined : found.2.isDefined
      · simp [RegistryOp.indexed, define, hfind, hdefined]
      · simp [RegistryOp.indexed, define, hfind, hdefined] at h
  | abandon name =>
    rw [RegistryOp.indexed, abandon_fst] at h
    cases h

namespace Exact

variable {r : IndexedRegistry} (h : r.Exact)

include h

theorem contains_iff (name : String) : r.contains name = true ↔ ∃ e ∈ r.toList, e.name = name := by
  rw [h.contains_eq, Registry.contains, Registry.get?, List.find?_isSome]
  simp [toRegistry]

theorem declare_fst (s : Signature) (flags : EntryFlags) (span : Span) :
    (r.declare s flags span).1 =
      if ∃ e ∈ r.toList, e.name = s.name then .error ⟨.duplicateFunction s.name, span⟩ else .ok s.hash := by
  rw [declare]
  simp only [← h.contains_iff]
  split <;> rfl

theorem define_fst (name : String) (code : Chunk) (span : Span) :
    (r.define name code span).1 =
      if ∀ e ∈ r.toList, e.name ≠ name then .error ⟨.internal .undeclaredEntry name, span⟩
      else if ∃ e ∈ r.toList, e.name = name ∧ e.isDefined = true then
        .error ⟨.internal .entryDefinedTwice name, span⟩
      else .ok () := by
  obtain ⟨hfind, hget⟩ | ⟨i, e, hfind, hget, he, rfl⟩ := h.find?_cases name
  · have hfree := List.find?_eq_none.1 hget
    rw [define, hfind, if_pos fun e he => by simpa using hfree e he]
  · have hmem := List.mem_of_getElem? he
    have htaken : ¬∀ e' ∈ r.toList, e'.name ≠ e.name := fun hfree => hfree e hmem rfl
    have hsame : (∃ e' ∈ r.toList, e'.name = e.name ∧ e'.isDefined = true) ↔ e.isDefined = true := by
      refine ⟨fun ⟨e', he', hname, hdefined⟩ => ?_, fun hdefined => ⟨e, hmem, rfl, hdefined⟩⟩
      have hfound := Registry.get?_of_mem h.nodup he'
      rw [hname, hget] at hfound
      rwa [Option.some.inj hfound]
    rw [if_neg htaken, define, hfind]
    simp only [hsame]
    split <;> rfl

theorem toList_indexed (op : RegistryOp) :
    (op.indexed r).2.toList = r.toList.filterMap op.act ++ (op.opens (op.indexed r).1).toList := by
  have hentries := Registry.entries_ordered h.nodup op
  rw [(h.follows op).2] at hentries
  exact hentries

/-- An abandoned name is free. -/
theorem get?_abandon {e : Entry} (he : e ∈ r.toList) (hopen : e.isDefined = false) :
    (r.abandon e.name).2.toRegistry.get? e.name = none := by
  have hget := Registry.get?_of_mem h.nodup he
  have hfollows := congrArg Prod.snd (h.follows_abandon e.name).2
  rw [← show _ = (r.abandon e.name).2.toRegistry from hfollows]
  exact Registry.get?_abandon_self hget (by simpa [Entry.isDefined] using hopen)

/-- A free name can be declared, and its entry comes last. -/
theorem declare_of_free {s : Signature} (hfree : r.toRegistry.get? s.name = none) (flags : EntryFlags)
    (span : Span) :
    (r.declare s flags span).1 = .ok s.hash ∧
      (r.declare s flags span).2.toList = r.toList ++ [.ofSignature s flags] := by
  have hcontains : r.contains s.name = false := by rw [h.contains_eq, Registry.contains, hfree]; rfl
  simp [declare, hcontains, toList]

/-- Whatever comes later, entries with code stay as they are, in their order. -/
theorem toList_run (ops : List RegistryOp) :
    (RegistryOp.run RegistryOp.indexed ops r).2.toList = r.toList.filterMap (RegistryOp.fate ops) ++
        RegistryOp.standing ops (RegistryOp.run RegistryOp.indexed ops r).1 ∧
      (r.toList.filter Entry.isDefined).Sublist (RegistryOp.run RegistryOp.indexed ops r).2.toList := by
  obtain ⟨hentries, -⟩ := Registry.entries_run ops h.nodup
  rw [(run_indexed ops h).2] at hentries
  have hlist : (RegistryOp.run RegistryOp.indexed ops r).2.toList = _ := hentries
  refine ⟨hlist, ?_⟩
  have hkeep : (r.toList.filter Entry.isDefined).filterMap (RegistryOp.fate ops) =
      r.toList.filter Entry.isDefined := by
    rw [List.filterMap_congr fun e he => RegistryOp.fate_of_isDefined (List.of_mem_filter he) ops]
    exact List.filterMap_some
  rw [hlist, ← hkeep]
  exact ((List.filter_sublist).filterMap _).trans (List.sublist_append_left _ _)

end Exact

end IndexedRegistry

/-- Any operations on the empty registry with an index.

The registry lists the entries that were declared and are not taken back, in the order of their declarations,
under different names, and with the code that was given to them first.  Look-up is a search of this list, and
the index has the position of each name.

Declaring fails just if the name is listed.  Giving code fails just if the name is not listed or its entry has
code.  A failed operation changes nothing, and one that does not fail changes nothing but the entry that has
its name and no code, and a new entry comes last.  An entry with code is never taken back, moved past another
or changed, whatever comes later.  A name that was taken back is free.

The registry without index goes through the same operations with the same outcomes and has the same list. -/
theorem registry_history (ops : List RegistryOp) :
    let outcomes := (RegistryOp.run RegistryOp.indexed ops IndexedRegistry.empty).1
    let r := (RegistryOp.run RegistryOp.indexed ops IndexedRegistry.empty).2
    r.toList = RegistryOp.standing ops outcomes ∧
      (r.toList.map Entry.name).Nodup ∧
      (∀ name, r.get? name = r.toList.find? (·.name = name)) ∧
      (∀ name, r.contains name = true ↔ ∃ e ∈ r.toList, e.name = name) ∧
      (∀ (name : String) (i : Nat), r.index[name]? = some i ↔ ∃ e, r.toList[i]? = some e ∧ e.name = name) ∧
      (∀ s flags span, (r.declare s flags span).1 =
        if ∃ e ∈ r.toList, e.name = s.name then .error ⟨.duplicateFunction s.name, span⟩ else .ok s.hash) ∧
      (∀ name code span, (r.define name code span).1 =
        if ∀ e ∈ r.toList, e.name ≠ name then .error ⟨.internal .undeclaredEntry name, span⟩
        else if ∃ e ∈ r.toList, e.name = name ∧ e.isDefined = true then
          .error ⟨.internal .entryDefinedTwice name, span⟩
        else .ok ()) ∧
      (∀ name, (r.abandon name).1 = .ok ()) ∧
      (∀ (op : RegistryOp) (e : CompileError), (op.indexed r).1 = .error e → (op.indexed r).2 = r) ∧
      (∀ op : RegistryOp, (op.indexed r).2.toList =
        r.toList.filterMap op.act ++ (op.opens (op.indexed r).1).toList) ∧
      (∀ more, (RegistryOp.run RegistryOp.indexed more r).2.toList =
          r.toList.filterMap (RegistryOp.fate more) ++
            RegistryOp.standing more (RegistryOp.run RegistryOp.indexed more r).1 ∧
        (r.toList.filter Entry.isDefined).Sublist (RegistryOp.run RegistryOp.indexed more r).2.toList) ∧
      (∀ e ∈ r.toList, e.isDefined = false → ∀ s flags span, s.name = e.name →
        ((r.abandon e.name).2.declare s flags span).1 = .ok s.hash ∧
        ((r.abandon e.name).2.declare s flags span).2.toList =
          (r.abandon e.name).2.toList ++ [.ofSignature s flags]) ∧
      RegistryOp.run RegistryOp.ordered ops Registry.empty = (outcomes, ⟨r.toList⟩) := by
  intro outcomes r
  obtain ⟨hexact, hrun⟩ := IndexedRegistry.run_indexed ops IndexedRegistry.exact_empty
  obtain ⟨hstanding, -⟩ := IndexedRegistry.exact_empty.toList_run ops
  refine ⟨hstanding, hexact.nodup, hexact.get?_eq, hexact.contains_iff,
    fun name i => (hexact name i).trans IndexedRegistry.getElem?_names, hexact.declare_fst, hexact.define_fst,
    IndexedRegistry.abandon_fst r, fun op e => IndexedRegistry.indexed_of_error, hexact.toList_indexed,
    hexact.toList_run, fun e he hopen s flags span hname => ?_, hrun⟩
  have hfree : (r.abandon e.name).2.toRegistry.get? s.name = none := hname ▸ hexact.get?_abandon he hopen
  exact (hexact.follows_abandon e.name).1.declare_of_free hfree flags span

/-- Taking back an entry moves the ones behind it. -/
example :
    let outer : Signature := ⟨"outer", [], .unit, "", false⟩
    let inner : Signature := ⟨"inner", [], .unit, "", false⟩
    let ops : List RegistryOp := [.declare outer .user default, .declare inner .synthetic default,
      .define "inner" default default, .abandon "outer", .abandon "inner"]
    let r := (RegistryOp.run RegistryOp.indexed ops IndexedRegistry.empty).2
    r.toList.map Entry.name = ["inner"] ∧ r.index["inner"]? = some 0 ∧ r.contains "outer" = false := by
  decide +kernel

end BlockCompiler

import Std.Data.TreeMap
import BlockCompiler.Signature

/-!
# Tables of known functions

A `FunctionTable` maps names to signatures.  A signature is always filed under its own name, which
`FunctionTable.name_of_get?` says, and a later signature takes the place of an earlier one of the
same name.
-/

namespace BlockCompiler

/-- The functions that code may refer to. -/
structure FunctionTable where
  byName : Std.TreeMap String Signature := {}
  filed : ∀ (name : String) (s : Signature), byName[name]? = some s → s.name = name := by
    intro name s h; simp at h

namespace FunctionTable

/-- The table without functions. -/
def empty : FunctionTable := {}

instance : EmptyCollection FunctionTable := ⟨empty⟩
instance : Inhabited FunctionTable := ⟨empty⟩

/-- The function with a name. -/
def get? (t : FunctionTable) (name : String) : Option Signature := t.byName[name]?

/-- Whether a name is known. -/
def contains (t : FunctionTable) (name : String) : Bool := t.byName.contains name

/-- The number of functions. -/
def size (t : FunctionTable) : Nat := t.byName.size

/-- Whether no function is known. -/
def isEmpty (t : FunctionTable) : Bool := t.byName.isEmpty

/-- Files a signature under its name, in place of an earlier one. -/
def insert (t : FunctionTable) (s : Signature) : FunctionTable where
  byName := t.byName.insert s.name s
  filed := by
    intro name u h
    rw [Std.TreeMap.getElem?_insert] at h
    split at h
    next heq => rw [← Option.some.inj h]; exact Std.LawfulEqCmp.eq_of_compare heq
    next => exact t.filed name u h

/-- The table of the signatures of a list; of two with one name, the later counts. -/
def ofList (sigs : List Signature) : FunctionTable := sigs.foldl insert empty

/-- The signatures, ordered by name. -/
def toList (t : FunctionTable) : List Signature := t.byName.values

/-! ## Look-up -/

@[simp] theorem get?_empty (name : String) : empty.get? name = none := by
  simp [get?, empty]

theorem get?_insert (t : FunctionTable) (s : Signature) (name : String) :
    (t.insert s).get? name = if s.name = name then some s else t.get? name := by
  simp [get?, insert, Std.TreeMap.getElem?_insert]

/-- A signature that is found under a name has that name. -/
theorem name_of_get? {t : FunctionTable} {name : String} {s : Signature}
    (h : t.get? name = some s) : s.name = name :=
  t.filed name s h

end FunctionTable

end BlockCompiler

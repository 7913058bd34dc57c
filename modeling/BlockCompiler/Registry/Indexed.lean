import Std.Data.TreeMap
import BlockCompiler.Attempt
import BlockCompiler.Registry

/-!
# A registry with an index

A `Registry` searches its entries for a name.  An `IndexedRegistry` has them in an array and keeps the
position of each name in an index, so that look-up does not search.

The index has to follow the array.  Taking back a registration removes an entry from the middle, and all
entries behind it move up by one place, and so must their positions.
-/

namespace BlockCompiler

/-- Entries in the order of their registration, and the positions of their names. -/
structure IndexedRegistry where
  entries : Array Entry := #[]
  index : Std.TreeMap String Nat := {}

namespace IndexedRegistry

/-- The registry without entries. -/
def empty : IndexedRegistry := {}

instance : EmptyCollection IndexedRegistry := ⟨empty⟩
instance : Inhabited IndexedRegistry := ⟨empty⟩

/-- The entries in the order of their registration. -/
def toList (r : IndexedRegistry) : List Entry := r.entries.toList

/-- The entry with a name, and its position. -/
def find? (r : IndexedRegistry) (name : String) : Option (Nat × Entry) := do
  let i ← r.index[name]?
  let e ← r.entries[i]?
  some (i, e)

/-- The entry with a name. -/
def get? (r : IndexedRegistry) (name : String) : Option Entry := (r.find? name).map Prod.snd

/-- Whether a name is registered. -/
def contains (r : IndexedRegistry) (name : String) : Bool := r.index.contains name

/-- The position that an entry has after the one at position `i` was removed. -/
def closeGap (i j : Nat) : Nat := if i < j then j - 1 else j

/-- Registers a function, without code, after all others, and returns its identity. -/
def declare (s : Signature) (flags : EntryFlags) (span : Span) :
    Attempt IndexedRegistry FunctionHash := fun r =>
  if r.contains s.name then (.error ⟨.duplicateFunction s.name, span⟩, r)
  else
    (.ok s.hash,
      { entries := r.entries.push (.ofSignature s flags)
        index := r.index.insert s.name r.entries.size })

/-- Gives a registered function its code. -/
def define (name : String) (code : Chunk) (span : Span) : Attempt IndexedRegistry Unit := fun r =>
  match r.find? name with
  | none => (.error ⟨.internal .undeclaredEntry name, span⟩, r)
  | some (i, e) =>
    if e.isDefined then (.error ⟨.internal .entryDefinedTwice name, span⟩, r)
    else (.ok (), { r with entries := r.entries.setIfInBounds i { e with code? := some code } })

/-- Takes back the registration of a function that has no code. -/
def abandon (name : String) : Attempt IndexedRegistry Unit := fun r =>
  match r.find? name with
  | none => (.ok (), r)
  | some (i, e) =>
    if e.isDefined then (.ok (), r)
    else
      (.ok (),
        { entries := r.entries.eraseIdxIfInBounds i
          index := (r.index.erase name).map fun _ j => closeGap i j })

end IndexedRegistry

end BlockCompiler

import Std.Data.TreeMap
import BlockCompiler.Signature

/-!
# Compiled anonymous functions

A `LambdaTable` maps the source text of an anonymous function to the signature of the function it was
compiled to.
-/

namespace BlockCompiler

/-- Signatures of compiled anonymous functions by source text. -/
structure LambdaTable where
  byText : Std.TreeMap String Signature := {}

namespace LambdaTable

/-- The table without functions. -/
def empty : LambdaTable := {}

instance : EmptyCollection LambdaTable := ⟨empty⟩
instance : Inhabited LambdaTable := ⟨empty⟩

/-- The function compiled for a text. -/
def get? (t : LambdaTable) (text : String) : Option Signature := t.byText[text]?

/-- Whether a function was compiled for a text. -/
def contains (t : LambdaTable) (text : String) : Bool := t.byText.contains text

/-- The number of texts. -/
def size (t : LambdaTable) : Nat := t.byText.size

/-- Whether there are no texts. -/
def isEmpty (t : LambdaTable) : Bool := t.byText.isEmpty

/-- Records the function compiled for a text. -/
def insert (t : LambdaTable) (text : String) (s : Signature) : LambdaTable :=
  ⟨t.byText.insert text s⟩

/-- The texts with their functions, ordered by text. -/
def toList (t : LambdaTable) : List (String × Signature) := t.byText.toList

@[simp] theorem get?_empty (text : String) : empty.get? text = none := by
  simp [get?, empty]

theorem get?_insert (t : LambdaTable) (text : String) (s : Signature) (text' : String) :
    (t.insert text s).get? text' = if text = text' then some s else t.get? text' := by
  simp [get?, insert, Std.TreeMap.getElem?_insert]

end LambdaTable

end BlockCompiler

import BlockCompiler.Pool
import BlockCompiler.Registry

/-!
# Modules

The product of a compilation: the entries and the pool of constants that their code refers to.
-/

namespace BlockCompiler

/-- A compiled module. -/
structure Module where
  name : String
  pool : Pool
  registry : Registry

namespace Module

/-- The functions of a module, in the order of their registration. -/
def functions (m : Module) : List Entry := m.registry.entries

/-- The function with a name. -/
def function? (m : Module) (name : String) : Option Entry := m.registry.get? name

/-- The code of the function with a name. -/
def code? (m : Module) (name : String) : Option Chunk := (m.function? name).bind Entry.code?

/-- The functions that the compiler made up, in the order of their registration. -/
def syntheticFunctions (m : Module) : List Entry := m.functions.filter Entry.isSynthetic

/-- The number of functions. -/
def size (m : Module) : Nat := m.registry.size

/-- Whether there are no functions. -/
def isEmpty (m : Module) : Bool := m.registry.isEmpty

theorem mem_of_function? {m : Module} {name : String} {e : Entry} (h : m.function? name = some e) :
    e ∈ m.functions :=
  List.mem_of_find?_eq_some h

end Module

end BlockCompiler

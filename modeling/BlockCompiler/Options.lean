/-!
# Options

What a caller may choose about a compilation.
-/

namespace BlockCompiler

/-- The choices of a caller. -/
structure Options where
  /-- The name of the module, which owns all functions that the compiler makes up. -/
  owner : String := "Main"
  /-- How many levels expressions may nest.  No depth that is computed exceeds the limit by more than two,
  so below a limit of `2 ^ 32 - 2` counters of 32 bits show the same depths. -/
  maxDepth : Nat := 256
  /-- Whether chunks describe lines, parameters and ranges. -/
  debugInfo : Bool := true
deriving DecidableEq, Repr, Inhabited

end BlockCompiler

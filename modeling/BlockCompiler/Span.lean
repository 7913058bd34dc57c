/-!
# Source positions

A `Span` says where a piece of source text stands: its line, its column and its length.  Errors
carry one, and every byte of generated code is annotated with the line of one.
-/

namespace BlockCompiler

/-- A place in the source text.  Lines and columns count from one. -/
structure Span where
  line : Nat
  col : Nat
  len : Nat
deriving DecidableEq, Repr, Inhabited

namespace Span

/-- The empty span at a line and column. -/
def point (line col : Nat) : Span := ⟨line, col, 0⟩

/-- A span on line zero stands for "nowhere". -/
def isKnown (s : Span) : Bool := s.line != 0

/-- A span is written as its line and column, with a colon between them. -/
def render (s : Span) : String := toString s.line ++ ":" ++ toString s.col

instance : ToString Span := ⟨render⟩

end Span

end BlockCompiler

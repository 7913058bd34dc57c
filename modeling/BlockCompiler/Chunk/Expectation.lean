import BlockCompiler.Chunk.Decode

/-!
# Expectations on code

Two checks compare the operation codes of a chunk with a list of expected ones.  `Chunk.expectOps`
wants exactly the list.  `Chunk.expectContains` wants it as a subsequence, so other instructions may
stand before, between and after; if it is not one, what is left of the list after the longest part
that could be found is reported.
-/

namespace BlockCompiler

/-- How a chunk disappoints an expectation. -/
inductive Disappointment where
  /-- The code is not the expected list. -/
  | mismatch (expected actual : List OpCode)
  /-- This rest of the expected list could not be found. -/
  | missing (remaining actual : List OpCode)
deriving DecidableEq, Repr

/-- A listing of operation codes: quoted names, in brackets. -/
def OpCode.listing (ops : List OpCode) : String :=
  "[" ++ ", ".intercalate (ops.map fun op => "\"" ++ op.name ++ "\"") ++ "]"

/-- The report of a disappointment. -/
def Disappointment.message : Disappointment → String
  | mismatch expected actual =>
    "Bytecode mismatch.\nExpected: " ++ OpCode.listing expected ++
      "\nActual:   " ++ OpCode.listing actual
  | missing remaining actual =>
    "Missing opcodes in sequence.\nExpected to find: " ++ OpCode.listing remaining ++
      "\nActual bytecode:  " ++ OpCode.listing actual

/-- What remains of the expected list after each of its members, in turn, was met at the first
chance. -/
def OpCode.unmet : (expected actual : List OpCode) → List OpCode
  | [], _ => []
  | expected, [] => expected
  | e :: expected, a :: actual =>
    if e = a then unmet expected actual else unmet (e :: expected) actual
termination_by structural _ actual => actual

namespace Chunk

/-- Checks that the code is exactly the expected list. -/
def expectOps (c : Chunk) (expected : List OpCode) : Except Disappointment Unit :=
  if c.opcodes = expected then .ok () else .error (.mismatch expected c.opcodes)

/-- Checks that the expected list is a subsequence of the code. -/
def expectContains (c : Chunk) (expected : List OpCode) : Except Disappointment Unit :=
  match OpCode.unmet expected c.opcodes with
  | [] => .ok ()
  | remaining => .error (.missing remaining c.opcodes)

end Chunk

end BlockCompiler

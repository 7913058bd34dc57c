import BlockCompiler.Attempt
import BlockCompiler.Journal
import BlockCompiler.Pool
import BlockCompiler.Registry

/-!
# Sessions

A `Session` is what the functions of one block share while they are compiled: the registry, the pool
of constants, the counter that numbers made-up functions, the constants wrapped so far, and the
journal.
-/

namespace BlockCompiler

/-- The shared state of a compilation. -/
structure Session where
  registry : Registry := .empty
  pool : Pool := .empty
  /-- The number of the next made-up function.  A counter of 32 bits shows the same numbers as long as
  fewer than `2 ^ 32` functions are made up. -/
  nextId : Nat := 0
  wrappers : Std.TreeMap String Signature := {}
  journal : Array Event := #[]

namespace Session

/-- The session in which nothing has happened. -/
def start : Session := {}

instance : Inhabited Session := ⟨start⟩

/-- The wrapper made for a key. -/
def wrapper? (s : Session) (key : String) : Option Signature := s.wrappers[key]?

/-- Notes an event. -/
def note (s : Session) (event : Event) : Session := { s with journal := s.journal.push event }

/-- Remembers the wrapper made for a key. -/
def rememberWrapper (s : Session) (key : String) (signature : Signature) : Session :=
  { s with wrappers := s.wrappers.insert key signature }

/-! ## Steps of a session -/

/-- Notes an event. -/
def record (event : Event) : Attempt Session Unit := .modify (·.note event)

/-- A number that was not handed out before. -/
def freshId : Attempt Session Nat := fun s => (.ok s.nextId, { s with nextId := s.nextId + 1 })

/-- Remembers the wrapper made for a key. -/
def remember (key : String) (signature : Signature) : Attempt Session Unit :=
  .modify (·.rememberWrapper key signature)

/-- Registers a function. -/
def declare (signature : Signature) (flags : EntryFlags) (span : Span) : Attempt Session Unit :=
  .update fun s => do
    let registry ← s.registry.declare signature flags span
    .ok ({ s with registry }.note (.declared signature))

/-- Gives a registered function its code. -/
def define (name : String) (code : Chunk) (span : Span) : Attempt Session Unit :=
  .update fun s => do
    let registry ← s.registry.define name code span
    .ok ({ s with registry }.note (.defined name code.size))

/-- Takes back the registration of a function that has no code. -/
def abandon (name : String) : Attempt Session Unit :=
  .modify fun s => { s with registry := s.registry.abandon name }

end Session

end BlockCompiler

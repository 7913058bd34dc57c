import BlockCompiler.Chunk
import BlockCompiler.Error
import BlockCompiler.Signature

/-!
# Registered entries

A `Registry` lists the functions of a module in the order of their registration.  A function is
registered before its body is compiled, so that its name is taken meanwhile, and receives its code
once the body has compiled.  If the body fails, the registration is taken back, so a finished module
holds no function without code.

Names are unique.  `declare` refuses a registered name; `define` refuses a name that is not
registered or has code; `abandon` removes an entry that has no code and leaves all others alone.
-/

namespace BlockCompiler

/-! ## Flags -/

/-- Who may see a function and where it comes from. -/
structure EntryFlags where
  /-- Visible outside the module. -/
  isPublic : Bool
  /-- Called without a receiver. -/
  isStatic : Bool
  /-- Cannot be overridden. -/
  isFinal : Bool
  /-- Made up by the compiler. -/
  isSynthetic : Bool
deriving DecidableEq, Repr, Inhabited

namespace EntryFlags

/-- The flags of a declared function. -/
def user : EntryFlags := ⟨true, true, false, false⟩

/-- The flags of a function made up by the compiler. -/
def synthetic : EntryFlags := ⟨true, true, true, true⟩

/-- The flags as bits, the first flag lowest. -/
def bits (f : EntryFlags) : Nat :=
  f.isPublic.toNat + 2 * f.isStatic.toNat + 4 * f.isFinal.toNat + 8 * f.isSynthetic.toNat

/-- The flags that the four lowest bits of a number set. -/
def ofBits (n : Nat) : EntryFlags := ⟨n.testBit 0, n.testBit 1, n.testBit 2, n.testBit 3⟩

@[simp] theorem ofBits_bits (f : EntryFlags) : ofBits f.bits = f := by
  rcases f with ⟨_ | _, _ | _, _ | _, _ | _⟩ <;> decide

end EntryFlags

/-! ## Entries -/

/-- A registered function; it has no code while its body is being compiled.  The machine form of its
type and its identity are computed when it is registered, and kept. -/
structure Entry where
  signature : Signature
  descriptor : String
  hash : FunctionHash
  flags : EntryFlags
  code? : Option Chunk := none
deriving DecidableEq, Repr, Inhabited

namespace Entry

/-- The entry of a function with this signature. -/
def ofSignature (s : Signature) (flags : EntryFlags) (code? : Option Chunk := none) : Entry where
  signature := s
  descriptor := s.descriptor
  hash := s.hash
  flags := flags
  code? := code?

/-- The name of the function. -/
def name (e : Entry) : String := e.signature.name

/-- Whether the function has its code. -/
def isDefined (e : Entry) : Bool := e.code?.isSome

/-- Whether the compiler made the function up. -/
def isSynthetic (e : Entry) : Bool := e.flags.isSynthetic

section ofSignature
variable (s : Signature) (flags : EntryFlags) (code? : Option Chunk)

@[simp] theorem ofSignature_signature : (ofSignature s flags code?).signature = s := rfl

@[simp] theorem ofSignature_flags : (ofSignature s flags code?).flags = flags := rfl

@[simp] theorem ofSignature_name : (ofSignature s flags code?).name = s.name := rfl

end ofSignature

end Entry

/-! ## The registry -/

/-- Entries in the order of their registration. -/
structure Registry where
  entries : List Entry := []
deriving DecidableEq, Repr, Inhabited

namespace Registry

/-- The registry without entries. -/
def empty : Registry := {}

instance : EmptyCollection Registry := ⟨empty⟩

/-- The entry with a name. -/
def get? (r : Registry) (name : String) : Option Entry := r.entries.find? (·.name = name)

/-- Whether a name is registered. -/
def contains (r : Registry) (name : String) : Bool := (r.get? name).isSome

/-- The number of entries. -/
def size (r : Registry) : Nat := r.entries.length

/-- Whether nothing is registered. -/
def isEmpty (r : Registry) : Bool := r.entries.isEmpty

/-- Registers a function, without code, after all others. -/
def declare (r : Registry) (s : Signature) (flags : EntryFlags) (span : Span) :
    Except CompileError Registry :=
  if r.contains s.name then .error ⟨.duplicateFunction s.name, span⟩
  else .ok ⟨r.entries ++ [.ofSignature s flags]⟩

/-- An entry with its code, if it has this name; any other entry as it is. -/
def attach (name : String) (code : Chunk) (e : Entry) : Entry :=
  if e.name = name then { e with code? := some code } else e

/-- Gives a registered function its code. -/
def define (r : Registry) (name : String) (code : Chunk) (span : Span) :
    Except CompileError Registry :=
  match r.get? name with
  | none => .error ⟨.internal .undeclaredEntry name, span⟩
  | some e =>
    if e.isDefined then .error ⟨.internal .entryDefinedTwice name, span⟩
    else .ok ⟨r.entries.map (attach name code)⟩

/-- Takes back the registration of a function that has no code. -/
def abandon (r : Registry) (name : String) : Registry :=
  match r.get? name with
  | none => r
  | some e => if e.isDefined then r else ⟨r.entries.filter (·.name ≠ name)⟩

/-! ## What the operations do to look-up -/

@[simp] theorem attach_name (name : String) (code : Chunk) (e : Entry) :
    (attach name code e).name = e.name := by
  unfold attach
  split <;> rfl

@[simp] theorem attach_ofSignature (s : Signature) (flags : EntryFlags) (code : Chunk) :
    attach s.name code (.ofSignature s flags) = .ofSignature s flags (some code) :=
  if_pos rfl

theorem get?_of_declare {r r' : Registry} {s : Signature} {flags : EntryFlags} {span : Span}
    (h : r.declare s flags span = .ok r') (name : String) :
    r'.get? name = if s.name = name then some (.ofSignature s flags) else r.get? name := by
  unfold declare at h
  split at h
  · cases h
  next hfree =>
    cases h
    simp only [get?, List.find?_append, List.find?_singleton]
    by_cases hn : s.name = name
    · subst hn
      have hnone : r.entries.find? (fun e => decide (e.name = s.name)) = none := by
        simpa [contains, get?] using hfree
      simp [hnone]
    · simp [hn]

theorem get?_abandon_of_ne (r : Registry) {name name' : String} (h : name' ≠ name) :
    (r.abandon name).get? name' = r.get? name' := by
  unfold abandon
  split
  · rfl
  · split
    · rfl
    · simp only [get?]
      rw [List.find?_filter]
      congr 1
      funext e
      by_cases he : e.name = name'
      · simp [he, h]
      · simp [he]

end Registry

end BlockCompiler

import BlockCompiler.Emitter
import BlockCompiler.Options
import BlockCompiler.Session
import BlockCompiler.TypeStack
import BlockCompiler.Typing

/-!
# Functions under compilation

A `Frame` is the state of one function while its body is compiled: its code so far, the slots of its
arguments, the types on its operand stack, and how deep the current expression lies.  A `Workbench` is
a frame together with the session that it shares with other functions.  Code is generated by attempts
on a workbench; the type `Gen` abbreviates them.
-/

namespace BlockCompiler

/-- What stays fixed while a function is compiled. -/
structure CodeContext where
  functions : FunctionTable
  options : Options
  /-- The anonymous functions compiled so far. -/
  lambdas : LambdaTable

/-- The state of a function under compilation. -/
structure Frame where
  signature : Signature
  /-- Where the function is declared. -/
  site : Span
  emitter : Emitter := {}
  scope : Scope := .empty
  operands : TypeStack := {}
  /-- How many expressions and functions enclose the current expression. -/
  depth : Nat := 0

/-- The frame of a function before its body. -/
def Frame.start (signature : Signature) (site : Span) (depth : Nat) : Frame :=
  { signature, site, depth }

/-- A function under compilation, and what it shares with others. -/
structure Workbench where
  session : Session
  frame : Frame

/-- A step in the generation of code. -/
abbrev Gen (α : Type) : Type := Attempt Workbench α

namespace Gen

/-- A step of the session. -/
def session {α : Type} (x : Attempt Session α) : Gen α
  | ⟨session, frame⟩ =>
    match x session with
    | (r, session) => (r, ⟨session, frame⟩)

/-- A step of the scope. -/
def scope {α : Type} (x : Attempt Scope α) : Gen α
  | ⟨session, signature, site, emitter, scope, operands, depth⟩ =>
    match x scope with
    | (r, scope) => (r, ⟨session, signature, site, emitter, scope, operands, depth⟩)

/-- The frame. -/
def frame : Gen Frame := fun w => (.ok w.frame, w)

/-- Changes the frame. -/
def modifyFrame (f : Frame → Frame) : Gen Unit := .modify fun w => { w with frame := f w.frame }

/-! ## Writing code -/

/-- Writes code that refers to no constant. -/
def emit (f : Emitter → Emitter) : Gen Unit :=
  modifyFrame fun fr => { fr with emitter := f fr.emitter }

/-- Writes code that refers to a constant. -/
def emitPooled (f : Emitter → Pool → Emitter × Pool) : Gen Unit :=
  .modify fun w =>
    let (emitter, pool) := f w.frame.emitter w.session.pool
    { session := { w.session with pool }, frame := { w.frame with emitter } }

/-- Puts a label at the end of the code and returns its offset. -/
def label : Gen Nat := fun w =>
  (.ok w.frame.emitter.offset, { w with frame.emitter := w.frame.emitter.label.1 })

/-- Makes a line the current one, if lines are wanted. -/
def setLine (ctx : CodeContext) (line : Nat) : Gen Unit :=
  if ctx.options.debugInfo then emit (·.setLine line) else pure ()

/-! ## Operand types -/

/-- Notes that a value of a type was pushed. -/
def pushTy (t : Ty) : Gen Unit :=
  modifyFrame fun fr => { fr with operands := fr.operands.push t }

/-- Takes the type on top. -/
def popTy (context : String) (span : Span) : Gen Ty := fun w =>
  match w.frame.operands.pop context span with
  | .ok (t, operands) => (.ok t, { w with frame.operands := operands })
  | .error e => (.error e, w)

/-- Checks that no operand is left. -/
def ensureNoOperands (context : String) (span : Span) : Gen Unit := fun w =>
  (w.frame.operands.ensureEmpty context span, w)

/-! ## Depth -/

/-- Runs a step one level deeper, if the limit admits it. -/
def nested {α : Type} (ctx : CodeContext) (span : Span) (x : Gen α) : Gen α := do
  .ofExcept (ensureDepth ctx.options.maxDepth (← frame).depth span)
  modifyFrame fun fr => { fr with depth := fr.depth + 1 }
  x.ending fun w => { w with frame.depth := w.frame.depth - 1 }

/-! ## Values -/

/-- The type of an expression in this function. -/
def infer (ctx : CodeContext) (e : Expr) : Gen Ty := do
  let typing ← .ofExcept
    (e.infer ⟨ctx.functions, (← frame).scope, ctx.lambdas, ctx.options.maxDepth⟩)
  pure typing.ty

/-- Pushes a function as a value. -/
def bindFunction (s : Signature) : Gen Unit := do
  emitPooled (·.bind s.toValue)
  pushTy s.toTy

/-- Turns code that leaves at most one value into an operand, and takes its type.  Code that leaves
none is followed by the value that carries nothing. -/
def operand (e : Expr) (code : Gen Unit) : Gen Ty := do
  let before := (← frame).operands.size
  code
  if (← frame).operands.size = before then
    emit (·.unit)
    pushTy .unit
  popTy e.text e.span

end Gen

end BlockCompiler

import BlockCompiler.Hoisting
import BlockCompiler.Module

/-!
# Compiling a block

`compileBlock` compiles the anonymous functions of a block and then the functions that it declares,
in order.  Each declared function must be known, for its signature comes from the table of known
functions.  A function that fails is reported and left out; the others are compiled all the same.  If
an anonymous function fails, no declared function is compiled.
-/

namespace BlockCompiler

/-- What comes out of a compilation. -/
structure Compilation where
  module : Module
  /-- The failures, in the order of the block. -/
  errors : List CompileError
  journal : Array Event

/-- Whether nothing failed. -/
def Compilation.isSuccess (c : Compilation) : Bool := c.errors.isEmpty

namespace Session

/-- Compiles a declared function. -/
def compileDecl (ctx : CodeContext) (d : Decl) : Attempt Session Unit := do
  let s ← .ofExcept (resolve ctx.functions d.name)
  compileWith s .user d.span 0 (Gen.body ctx d.body)

/-- Compiles declared functions in order, and returns the errors of those that failed. -/
def compileDecls (ctx : CodeContext) (session : Session) : List Decl → Session × List CompileError
  | [] => (session, [])
  | d :: ds =>
    match compileDecl ctx d session with
    | (.ok (), session) => compileDecls ctx session ds
    | (.error e, session) =>
      let (session, errors) := compileDecls ctx (session.note (.functionFailed d.name.name e)) ds
      (session, e :: errors)

/-- The module that a session has built. -/
def toModule (session : Session) (owner : String) : Module :=
  ⟨owner, session.pool, session.registry⟩

end Session

/-- Compiles a block. -/
def compileBlock (functions : FunctionTable) (options : Options) (block : Block) : Compilation :=
  let (session, errors) :=
    match Session.hoist functions options block .start with
    | (.ok lambdas, session) =>
      session.compileDecls ⟨functions, options, lambdas⟩ block.decls
    | (.error e, session) => (session.note (.hoistingFailed e), [e])
  ⟨session.toModule options.owner, errors, session.journal⟩

end BlockCompiler

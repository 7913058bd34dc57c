import BlockCompiler.Binary64
import BlockCompiler.Span

/-!
# Expressions and statements

The source of the compiler: a `Block` is a list of statements, and a statement evaluates an
expression, returns the value of one, or declares a function.  Every expression carries its span and
its source text.  The text matters beyond messages: two anonymous functions with one text are
compiled once, and so are two constants that are wrapped for one function type.

A pair writes two values of one type, an anonymous function `{body}` takes one real that its body
calls `_`, and a call names its callee.
-/

namespace BlockCompiler

/-- A name at a place in the source. -/
structure Ident where
  name : String
  span : Span
deriving DecidableEq, Repr, Inhabited

/-- The value that a literal writes. -/
inductive Literal where
  | int (value : Int64)
  | real (value : Binary64)
  | bool (value : Bool)
  | string (value : String)
  | unit
deriving DecidableEq, Repr, Inhabited

/-- An expression with its source text and its span. -/
inductive Expr where
  | literal (value : Literal) (text : String) (span : Span)
  | pair (first second : Expr) (text : String) (span : Span)
  | var (name : Ident)
  | placeholder (span : Span)
  | lambda (body : Expr) (text : String) (span : Span)
  | call (callee : Ident) (args : List Expr) (text : String) (span : Span)
deriving Repr, Inhabited

namespace Expr

/-- The source text of the placeholder, which is also the name of the argument it stands for. -/
def placeholderText : String := "_"

/-- Where an expression stands. -/
def span : Expr → Span
  | literal _ _ span => span
  | pair _ _ _ span => span
  | var name => name.span
  | placeholder span => span
  | lambda _ _ span => span
  | call _ _ _ span => span

/-- The source text of an expression. -/
def text : Expr → String
  | literal _ text _ => text
  | pair _ _ text _ => text
  | var name => name.name
  | placeholder _ => placeholderText
  | lambda _ text _ => text
  | call _ _ text _ => text

/-- Whether an expression is the bare placeholder. -/
def isPlaceholder : Expr → Bool
  | placeholder _ => true
  | _ => false

end Expr

/-- A statement. -/
inductive Stmt where
  | expr (value : Expr)
  | ret (value : Expr) (span : Span)
  | decl (name : Ident) (body : List Stmt) (span : Span)
deriving Repr, Inhabited

namespace Stmt

/-- Where a statement stands. -/
def span : Stmt → Span
  | expr value => value.span
  | ret _ span => span
  | decl _ _ span => span

/-- Whether a statement returns a value. -/
def isRet : Stmt → Bool
  | ret _ _ => true
  | _ => false

end Stmt

/-- A declared function. -/
structure Decl where
  name : Ident
  body : List Stmt
  span : Span
deriving Repr, Inhabited

/-- A sequence of top-level statements. -/
structure Block where
  stmts : List Stmt := []
deriving Repr, Inhabited

namespace Block

/-- The functions that a block declares at its top level, in order. -/
def decls (b : Block) : List Decl :=
  b.stmts.filterMap fun
    | .decl name body span => some ⟨name, body, span⟩
    | _ => none

end Block

end BlockCompiler

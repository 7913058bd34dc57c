import BlockCompiler.Binary64.Text
import BlockCompiler.Expr

/-!
# Building source without a reader

Expressions can be built directly.  Each then gets its canonical text: the text of a literal is its
value, a pair is written `(a,b)`, an anonymous function `{body}`, and a call `name(x,y)`, each from
the texts of its parts.

A `Builder` remembers a line and puts all that it builds at the start of that line.
-/

namespace BlockCompiler

/-! ## Canonical texts -/

/-- The canonical text of a literal.  The characters of a string stand as they are. -/
def Literal.text : Literal → String
  | int value => toString value.toInt
  | real value => value.render
  | bool value => if value then "true" else "false"
  | string value => "\"" ++ value ++ "\""
  | unit => "()"

namespace Expr

/-- The canonical text of a pair of two texts. -/
def pairText (first second : String) : String := "(" ++ first ++ "," ++ second ++ ")"

/-- The canonical text of an anonymous function around the text of its body. -/
def lambdaText (body : String) : String := "\x7b" ++ body ++ "\x7d"

/-- The canonical text of a call with these argument texts. -/
def callText (name : String) (args : List String) : String :=
  name ++ "(" ++ ",".intercalate args ++ ")"

/-- A literal with its canonical text. -/
def ofLiteral (value : Literal) (span : Span) : Expr := .literal value value.text span

/-- A pair with its canonical text. -/
def ofPair (first second : Expr) (span : Span) : Expr :=
  .pair first second (pairText first.text second.text) span

/-- An anonymous function with its canonical text. -/
def ofLambda (body : Expr) (span : Span) : Expr := .lambda body (lambdaText body.text) span

/-- A call with its canonical text. -/
def ofCall (callee : Ident) (args : List Expr) (span : Span) : Expr :=
  .call callee args (callText callee.name (args.map Expr.text)) span

end Expr

/-! ## The builder -/

/-- The statements of a function body and where the body stands. -/
structure Body where
  stmts : List Stmt
  span : Span
deriving Repr, Inhabited

/-- Builds source at the line it remembers. -/
structure Builder where
  line : Nat := 1
deriving Repr, Inhabited

namespace Builder

/-- Moves to another line. -/
def atLine (_ : Builder) (line : Nat) : Builder := ⟨line⟩

/-- The place of everything built now. -/
def span (b : Builder) : Span := .point b.line 1

/-- A name at the current line. -/
def ident (b : Builder) (name : String) : Ident := ⟨name, b.span⟩

/-- A literal. -/
def literal (b : Builder) (value : Literal) : Expr := .ofLiteral value b.span

/-- A reference to a name. -/
def var (b : Builder) (name : String) : Expr := .var (b.ident name)

/-- The placeholder. -/
def placeholder (b : Builder) : Expr := .placeholder b.span

/-- A pair. -/
def pair (b : Builder) (first second : Expr) : Expr := .ofPair first second b.span

/-- An anonymous function. -/
def lambda (b : Builder) (body : Expr) : Expr := .ofLambda body b.span

/-- A call. -/
def call (b : Builder) (name : String) (args : List Expr) : Expr :=
  .ofCall (b.ident name) args b.span

/-- A statement that evaluates an expression. -/
def expr (_ : Builder) (value : Expr) : Stmt := .expr value

/-- A statement that returns a value. -/
def ret (b : Builder) (value : Expr) : Stmt := .ret value b.span

/-- A declaration of a function. -/
def function (b : Builder) (name : String) (body : List Stmt) : Stmt :=
  .decl (b.ident name) body b.span

/-- A function body. -/
def body (b : Builder) (stmts : List Stmt) : Body := ⟨stmts, b.span⟩

/-- A block. -/
def block (_ : Builder) (stmts : List Stmt) : Block := ⟨stmts⟩

end Builder

end BlockCompiler

import BlockCompiler.Builder

/-!
# Expressions and their texts

The compiler compares expressions by their source texts only.  What that is worth depends on the
texts: a reader gives one text to equal expressions, while a block that was built by hand may hold
anything.

* `Block.exprs` lists the expressions of a block: every one, at any depth.
* `Expr.eraseSpans` forgets where an expression stands.  `Block.TextFaithful` says that expressions of
  a block that have one text are equal but for their spans.
* `Expr.height` is how deep expressions nest below one.
-/

namespace BlockCompiler

/-! ## Spans -/

/-- A name without its place. -/
def Ident.eraseSpan (i : Ident) : Ident := ⟨i.name, default⟩

namespace Expr

mutual

/-- An expression without the places of its parts. -/
def eraseSpans : Expr → Expr
  | literal value text _ => literal value text default
  | pair first second text _ => pair (eraseSpans first) (eraseSpans second) text default
  | var name => var name.eraseSpan
  | placeholder _ => placeholder default
  | lambda body text _ => lambda (eraseSpans body) text default
  | call callee args text _ => call callee.eraseSpan (eraseSpansAll args) text default
termination_by structural e => e

/-- The expressions of a list without their places. -/
def eraseSpansAll : List Expr → List Expr
  | [] => []
  | e :: es => eraseSpans e :: eraseSpansAll es
termination_by structural es => es

end

@[simp] theorem text_eraseSpans (e : Expr) : e.eraseSpans.text = e.text := by
  cases e <;> rfl

/-- Expressions that are equal but for their spans have one text. -/
theorem text_eq_of_eraseSpans_eq {e e' : Expr} (h : e.eraseSpans = e'.eraseSpans) :
    e.text = e'.text := by
  rw [← text_eraseSpans e, h, text_eraseSpans]

/-! ## Nesting -/

mutual

/-- How many levels of expressions lie below an expression. -/
def height : Expr → Nat
  | literal _ _ _ | var _ | placeholder _ => 0
  | pair first second _ _ => max (height first) (height second) + 1
  | lambda body _ _ => height body + 1
  | call _ args _ _ => heightAll args
termination_by structural e => e

/-- One more than the greatest height in a list, and zero if there is none. -/
def heightAll : List Expr → Nat
  | [] => 0
  | e :: es => max (height e + 1) (heightAll es)
termination_by structural es => es

end

mutual

theorem height_eraseSpans : ∀ e : Expr, e.eraseSpans.height = e.height
  | literal _ _ _ | var _ | placeholder _ => rfl
  | pair first second _ _ => by
    rw [eraseSpans, height, height, height_eraseSpans first, height_eraseSpans second]
  | lambda body _ _ => by rw [eraseSpans, height, height, height_eraseSpans body]
  | call _ args _ _ => by rw [eraseSpans, height, height, heightAll_eraseSpansAll args]

theorem heightAll_eraseSpansAll : ∀ es : List Expr, heightAll (eraseSpansAll es) = heightAll es
  | [] => rfl
  | e :: es => by
    rw [eraseSpansAll, heightAll, heightAll, height_eraseSpans e, heightAll_eraseSpansAll es]

end

theorem height_eq_of_eraseSpans_eq {e e' : Expr} (h : e.eraseSpans = e'.eraseSpans) :
    e.height = e'.height := by
  rw [← height_eraseSpans e, h, height_eraseSpans]

/-! ## Parts -/

mutual

/-- An expression and all expressions in it. -/
def subexprs : Expr → List Expr
  | literal value text span => [literal value text span]
  | pair first second text span =>
    pair first second text span :: (subexprs first ++ subexprs second)
  | var name => [var name]
  | placeholder span => [placeholder span]
  | lambda body text span => lambda body text span :: subexprs body
  | call callee args text span => call callee args text span :: subexprsAll args
termination_by structural e => e

/-- The expressions of a list and all expressions in them. -/
def subexprsAll : List Expr → List Expr
  | [] => []
  | e :: es => subexprs e ++ subexprsAll es
termination_by structural es => es

end

theorem mem_subexprs_self (e : Expr) : e ∈ e.subexprs := by
  cases e <;> simp [subexprs]

theorem mem_subexprsAll {e : Expr} {es : List Expr} :
    e ∈ subexprsAll es ↔ ∃ e' ∈ es, e ∈ e'.subexprs := by
  induction es with
  | nil => simp [subexprsAll]
  | cons e' es ih => simp [subexprsAll, ih]

mutual

private theorem mem_subexprs_trans_aux {e' e'' : Expr} (h : e'' ∈ e'.subexprs) :
    ∀ e : Expr, e' ∈ e.subexprs → e'' ∈ e.subexprs
  | literal _ _ _, he | var _, he | placeholder _, he => by
    simp only [subexprs, List.mem_singleton] at he
    subst he
    exact h
  | pair first second _ _, he => by
    rw [subexprs] at he ⊢
    rcases List.mem_cons.1 he with rfl | he
    · rwa [subexprs] at h
    rcases List.mem_append.1 he with he | he
    · simp [mem_subexprs_trans_aux h first he]
    · simp [mem_subexprs_trans_aux h second he]
  | lambda body _ _, he => by
    rw [subexprs] at he ⊢
    rcases List.mem_cons.1 he with rfl | he
    · rwa [subexprs] at h
    · simp [mem_subexprs_trans_aux h body he]
  | call _ args _ _, he => by
    rw [subexprs] at he ⊢
    rcases List.mem_cons.1 he with rfl | he
    · rwa [subexprs] at h
    · simp [mem_subexprsAll_trans_aux h args he]

private theorem mem_subexprsAll_trans_aux {e' e'' : Expr} (h : e'' ∈ e'.subexprs) :
    ∀ es : List Expr, e' ∈ subexprsAll es → e'' ∈ subexprsAll es
  | [], he => by cases he
  | e :: es, he => by
    rw [subexprsAll] at he ⊢
    rcases List.mem_append.1 he with he | he
    · simp [mem_subexprs_trans_aux h e he]
    · simp [mem_subexprsAll_trans_aux h es he]

end

/-- A part of a part is a part. -/
theorem mem_subexprs_trans {e e' e'' : Expr} (h : e'' ∈ e'.subexprs) (h' : e' ∈ e.subexprs) :
    e'' ∈ e.subexprs :=
  mem_subexprs_trans_aux h e h'

end Expr

/-! ## Blocks -/

namespace Stmt

mutual

/-- All expressions in a statement. -/
def exprs : Stmt → List Expr
  | expr value => value.subexprs
  | ret value _ => value.subexprs
  | decl _ body _ => exprsAll body
termination_by structural s => s

/-- All expressions in a list of statements. -/
def exprsAll : List Stmt → List Expr
  | [] => []
  | s :: ss => exprs s ++ exprsAll ss
termination_by structural ss => ss

end

theorem mem_exprsAll {e : Expr} {ss : List Stmt} :
    e ∈ exprsAll ss ↔ ∃ s ∈ ss, e ∈ s.exprs := by
  induction ss with
  | nil => simp [exprsAll]
  | cons s ss ih => simp [exprsAll, ih]

mutual

/-- With an expression, a statement holds the parts of the expression. -/
theorem mem_exprs_of_mem_subexprs {e e' : Expr} (h : e' ∈ e.subexprs) :
    ∀ s : Stmt, e ∈ s.exprs → e' ∈ s.exprs
  | expr _, he | ret _ _, he => Expr.mem_subexprs_trans h he
  | decl _ body _, he => mem_exprsAll_of_mem_subexprs h body he

theorem mem_exprsAll_of_mem_subexprs {e e' : Expr} (h : e' ∈ e.subexprs) :
    ∀ ss : List Stmt, e ∈ exprsAll ss → e' ∈ exprsAll ss
  | [], he => by cases he
  | s :: ss, he => by
    rw [exprsAll] at he ⊢
    rcases List.mem_append.1 he with he | he
    · simp [mem_exprs_of_mem_subexprs h s he]
    · simp [mem_exprsAll_of_mem_subexprs h ss he]

end

end Stmt

namespace Block

/-- All expressions in a block: bare ones, those of bodies, and every part of them. -/
def exprs (b : Block) : List Expr := Stmt.exprsAll b.stmts

/-- Expressions of the block that have one text are equal but for their spans. -/
def TextFaithful (b : Block) : Prop :=
  ∀ e ∈ b.exprs, ∀ e' ∈ b.exprs, e.text = e'.text → e.eraseSpans = e'.eraseSpans

/-- Whether a real is written in a block. -/
def WritesReal (b : Block) (x : Binary64) : Prop :=
  ∃ text span, Expr.literal (.real x) text span ∈ b.exprs

variable {b : Block}

/-- A block holds the parts of its expressions. -/
theorem mem_exprs_of_mem_subexprs {e e' : Expr} (h : e' ∈ e.subexprs) (he : e ∈ b.exprs) :
    e' ∈ b.exprs :=
  Stmt.mem_exprsAll_of_mem_subexprs h b.stmts he

theorem first_mem_exprs {first second : Expr} {text : String} {span : Span}
    (h : Expr.pair first second text span ∈ b.exprs) : first ∈ b.exprs :=
  mem_exprs_of_mem_subexprs (by simp [Expr.subexprs, Expr.mem_subexprs_self]) h

theorem second_mem_exprs {first second : Expr} {text : String} {span : Span}
    (h : Expr.pair first second text span ∈ b.exprs) : second ∈ b.exprs :=
  mem_exprs_of_mem_subexprs (by simp [Expr.subexprs, Expr.mem_subexprs_self]) h

theorem body_mem_exprs {body : Expr} {text : String} {span : Span}
    (h : Expr.lambda body text span ∈ b.exprs) : body ∈ b.exprs :=
  mem_exprs_of_mem_subexprs (by simp [Expr.subexprs, Expr.mem_subexprs_self]) h

theorem arg_mem_exprs {callee : Ident} {args : List Expr} {text : String} {span : Span} {e : Expr}
    (h : Expr.call callee args text span ∈ b.exprs) (he : e ∈ args) : e ∈ b.exprs := by
  refine mem_exprs_of_mem_subexprs ?_ h
  rw [Expr.subexprs, List.mem_cons, Expr.mem_subexprsAll]
  exact .inr ⟨e, he, e.mem_subexprs_self⟩

end Block

end BlockCompiler

import BlockCompiler.Constancy
import BlockCompiler.Proofs.SourceText
import BlockCompiler.Proofs.StaticTypes

/-!
# How deep a block nests

The depth of a block is what a walk through it reaches.  Compiling goes deeper where a constant is passed
for a parameter that is a function: the constant is wrapped, and the code of the wrapper begins one level
below the constant.

* `Expr.levels` is the height of an expression with one more level for each constant that is wrapped.  It
  is at most twice the height, and no more than the height where nothing is wrapped.
* `Stmt.reach` extends such a measure to statements, which may contain others.
* `Block.depth` and `Block.levels` are the two measures of a block.
-/

namespace BlockCompiler

/-! ## Expressions -/

namespace Expr

/-- Whether a constant is wrapped where it is passed for a parameter. -/
def isWrappedFor (functions : FunctionTable) (limit : Nat) (p : Param) (e : Expr) : Bool :=
  match p.ty with
  | .fn _ result => e.isConstant functions limit && e.typeOf functions .empty = some result
  | _ => false

mutual

/-- How many levels lie below an expression, where each wrapped constant is one level deeper. -/
def levels (functions : FunctionTable) (limit : Nat) : Expr → Nat
  | literal _ _ _ | var _ | placeholder _ => 0
  | pair first second _ _ => max (levels functions limit first) (levels functions limit second) + 1
  | lambda body _ _ => levels functions limit body + 1
  | call callee args _ _ =>
    argLevels functions limit ((functions.get? callee.name).elim [] Signature.params) args
termination_by structural e => e

/-- One more than the greatest number of levels below arguments that are passed for parameters. -/
def argLevels (functions : FunctionTable) (limit : Nat) (ps : List Param) : List Expr → Nat
  | [] => 0
  | e :: es =>
    max (levels functions limit e + 1 + (ps.head?.any fun p => e.isWrappedFor functions limit p).toNat)
      (argLevels functions limit ps.tail es)
termination_by structural es => es

end

variable {functions : FunctionTable} {limit : Nat}

mutual

theorem height_le_levels : ∀ e : Expr, e.height ≤ e.levels functions limit
  | literal _ _ _ | var _ | placeholder _ => Nat.zero_le _
  | pair first second _ _ => by
    have hfirst := height_le_levels first
    have hsecond := height_le_levels second
    rw [height, levels]
    omega
  | lambda body _ _ => by
    have hbody := height_le_levels body
    rw [height, levels]
    omega
  | call _ args _ _ => by
    rw [height, levels]
    exact heightAll_le_argLevels args _

theorem heightAll_le_argLevels : ∀ (es : List Expr) (ps : List Param),
    heightAll es ≤ argLevels functions limit ps es
  | [], _ => Nat.le_refl 0
  | e :: es, ps => by
    have hhead := height_le_levels e
    have htail := heightAll_le_argLevels es ps.tail
    rw [heightAll, argLevels]
    omega

end

mutual

/-- At most every level is doubled. -/
theorem levels_le_two_mul : ∀ e : Expr, e.levels functions limit ≤ 2 * e.height
  | literal _ _ _ | var _ | placeholder _ => Nat.le_refl 0
  | pair first second _ _ => by
    have hfirst := levels_le_two_mul first
    have hsecond := levels_le_two_mul second
    rw [height, levels]
    omega
  | lambda body _ _ => by
    have hbody := levels_le_two_mul body
    rw [height, levels]
    omega
  | call _ args _ _ => by
    rw [height, levels]
    exact argLevels_le_two_mul args _

theorem argLevels_le_two_mul : ∀ (es : List Expr) (ps : List Param),
    argLevels functions limit ps es ≤ 2 * heightAll es
  | [], _ => Nat.le_refl 0
  | e :: es, ps => by
    have hhead := levels_le_two_mul e
    have htail := argLevels_le_two_mul es ps.tail
    have hextra := Bool.toNat_le (ps.head?.any fun p => e.isWrappedFor functions limit p)
    rw [heightAll, argLevels]
    omega

end

end Expr

/-- Whether no known function has a parameter that is a function. -/
def FunctionTable.FirstOrder (t : FunctionTable) : Prop :=
  ∀ ⦃name s⦄, t.get? name = some s → ∀ p ∈ s.params, ∀ params result, p.ty ≠ .fn params result

namespace FunctionTable

theorem firstOrder_empty : empty.FirstOrder := by
  intro name s hs
  rw [get?_empty] at hs
  cases hs

theorem FirstOrder.insert {t : FunctionTable} (h : t.FirstOrder) {s : Signature}
    (hs : ∀ p ∈ s.params, ∀ params result, p.ty ≠ .fn params result) : (t.insert s).FirstOrder := by
  intro name s' hs'
  rw [get?_insert] at hs'
  split at hs'
  · rw [← Option.some.inj hs']
    exact hs
  · exact h hs'

theorem firstOrder_ofList {sigs : List Signature}
    (h : ∀ s ∈ sigs, ∀ p ∈ s.params, ∀ params result, p.ty ≠ .fn params result) :
    (ofList sigs).FirstOrder :=
  List.foldlRecOn sigs _ firstOrder_empty fun _ ht s hs => ht.insert (h s hs)

end FunctionTable

namespace Expr

variable {functions : FunctionTable} {limit : Nat}

theorem isWrappedFor_eq_false {p : Param} (hp : ∀ params result, p.ty ≠ .fn params result) (e : Expr) :
    e.isWrappedFor functions limit p = false := by
  unfold isWrappedFor
  split
  next params result hty => exact absurd hty (hp params result)
  next => rfl

mutual

/-- Without parameters that are functions nothing is wrapped. -/
theorem levels_eq_height (h : functions.FirstOrder) : ∀ e : Expr, e.levels functions limit = e.height
  | literal _ _ _ | var _ | placeholder _ => rfl
  | pair first second _ _ => by rw [height, levels, levels_eq_height h first, levels_eq_height h second]
  | lambda body _ _ => by rw [height, levels, levels_eq_height h body]
  | call callee args _ _ => by
    rw [height, levels]
    refine argLevels_eq_heightAll h args fun p hp => ?_
    cases hs : functions.get? callee.name with
    | none =>
      rw [hs] at hp
      cases hp
    | some s =>
      rw [hs] at hp
      exact h hs p hp

theorem argLevels_eq_heightAll (h : functions.FirstOrder) : ∀ (es : List Expr) {ps : List Param},
    (∀ p ∈ ps, ∀ params result, p.ty ≠ .fn params result) →
      argLevels functions limit ps es = heightAll es
  | [], _, _ => rfl
  | e :: es, ps, hps => by
    have hextra : (ps.head?.any fun p => e.isWrappedFor functions limit p) = false := by
      cases ps with
      | nil => rfl
      | cons p ps => exact isWrappedFor_eq_false (hps p List.mem_cons_self) e
    have htail := argLevels_eq_heightAll h es fun p hp => hps p (List.mem_of_mem_tail hp)
    rw [heightAll, argLevels, hextra, levels_eq_height h e, htail]
    rfl

end

end Expr

/-! ## Statements -/

namespace Stmt

mutual

/-- The depth that is reached in a statement at some depth, where `m` measures its expressions. -/
def reach (m : Expr → Nat) (depth : Nat) : Stmt → Nat
  | expr e | ret e _ => depth + m e
  | decl _ body _ => max depth (reachAll m (depth + 1) body)
termination_by structural s => s

/-- The greatest depth that is reached in a list of statements. -/
def reachAll (m : Expr → Nat) (depth : Nat) : List Stmt → Nat
  | [] => 0
  | s :: ss => max (reach m depth s) (reachAll m depth ss)
termination_by structural ss => ss

end

/-- The depth that is reached in a statement of a block.  The statements of a declared function lie as
deep as the declaration itself. -/
def reachTop (m : Expr → Nat) : Stmt → Nat
  | decl _ body _ => reachAll m 0 body
  | s => reach m 0 s

mutual

theorem reach_le_mul {m m' : Expr → Nat} (h : ∀ e, m e ≤ 2 * m' e) : ∀ (s : Stmt) (depth : Nat),
    reach m depth s ≤ 2 * reach m' depth s
  | expr e, _ | ret e _, _ => by
    have := h e
    rw [reach, reach]
    omega
  | decl _ body _, depth => by
    have := reachAll_le_mul h body (depth + 1)
    rw [reach, reach]
    omega

theorem reachAll_le_mul {m m' : Expr → Nat} (h : ∀ e, m e ≤ 2 * m' e) :
    ∀ (ss : List Stmt) (depth : Nat), reachAll m depth ss ≤ 2 * reachAll m' depth ss
  | [], _ => Nat.le_refl 0
  | s :: ss, depth => by
    have := reach_le_mul h s depth
    have := reachAll_le_mul h ss depth
    rw [reachAll, reachAll]
    omega

end

/-- The greatest depth that is reached in the statements of a block. -/
def reachTopAll (m : Expr → Nat) : List Stmt → Nat
  | [] => 0
  | s :: ss => max (s.reachTop m) (reachTopAll m ss)

theorem reachTop_le_of_mem {m : Expr → Nat} {s : Stmt} : ∀ {ss : List Stmt}, s ∈ ss →
    s.reachTop m ≤ reachTopAll m ss
  | s' :: ss, hs => by
    rw [reachTopAll]
    rcases List.mem_cons.1 hs with rfl | hs
    · exact Nat.le_max_left _ _
    · exact Nat.le_trans (reachTop_le_of_mem hs) (Nat.le_max_right _ _)

theorem reachTopAll_le_mul {m m' : Expr → Nat} (h : ∀ e, m e ≤ 2 * m' e) : ∀ ss : List Stmt,
    reachTopAll m ss ≤ 2 * reachTopAll m' ss
  | [] => Nat.le_refl 0
  | s :: ss => by
    have hhead : s.reachTop m ≤ 2 * s.reachTop m' := by
      cases s with
      | expr | ret => exact reach_le_mul h _ 0
      | decl _ body _ => exact reachAll_le_mul h body 0
    have htail := reachTopAll_le_mul h ss
    rw [reachTopAll, reachTopAll]
    omega

end Stmt

/-! ## Blocks -/

namespace Block

/-- The greatest depth of a walk through a block. -/
def depth (block : Block) : Nat := Stmt.reachTopAll Expr.height block.stmts

/-- The same where each constant that is wrapped costs one more level. -/
def levels (functions : FunctionTable) (limit : Nat) (block : Block) : Nat :=
  Stmt.reachTopAll (Expr.levels functions limit) block.stmts

theorem levels_le_two_mul (functions : FunctionTable) (limit : Nat) (block : Block) :
    block.levels functions limit ≤ 2 * block.depth :=
  Stmt.reachTopAll_le_mul Expr.levels_le_two_mul block.stmts

theorem levels_eq_depth {functions : FunctionTable} (h : functions.FirstOrder) (limit : Nat)
    (block : Block) : block.levels functions limit = block.depth := by
  unfold levels depth
  rw [funext (Expr.levels_eq_height h)]

/-- The statements of a declared function lie as deep as those of the block. -/
theorem reachAll_body_le (m : Expr → Nat) {block : Block} {d : Decl} (hd : d ∈ block.decls) :
    Stmt.reachAll m 0 d.body ≤ Stmt.reachTopAll m block.stmts := by
  simp only [decls, List.mem_filterMap] at hd
  obtain ⟨s, hs, hd⟩ := hd
  cases s with
  | decl name body span =>
    cases hd
    exact Stmt.reachTop_le_of_mem hs
  | _ => cases hd

end Block

end BlockCompiler

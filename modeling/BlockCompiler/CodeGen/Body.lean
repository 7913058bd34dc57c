import BlockCompiler.CodeGen.Frame

/-!
# Bodies and returns

What surrounds the statements of a function: the declaration of its arguments, the labels at both
ends of its code, the records that describe it, and its return.

A function whose result is the unit type may be given any value to return; the value is dropped and
the unit value returned instead.  A body that does not end in a return statement returns the value of
its last expression.
-/

namespace BlockCompiler

/-- Describes an argument as valid between two offsets. -/
def LocalVar.range (v : LocalVar) (start stop : Nat) : LocalRange :=
  ⟨v.name, v.ty.descriptor, v.slot, start, stop⟩

namespace Gen

/-! ## Returns -/

/-- Returns the value on top, which has this type. -/
def returnTop (t : Ty) : Gen Unit := emit (·.ret (.ofTy t))

/-- Drops the value on top and returns the unit value. -/
def returnUnit : Gen Unit := do
  emit (·.pop)
  emit (·.unit)
  returnTop .unit

/-- Refuses a value of the wrong type as the result. -/
def failReturn {α : Type} (s : Signature) (actual : Ty) (span : Span) : Gen α :=
  .fail ⟨.returnTypeMismatch s.name s.result.render actual.render, span⟩

/-- Returns the value of an operand, whose source text is `text`. -/
def returnValue (text : String) (span : Span) (value : Gen Ty) : Gen Unit := do
  let actual ← value
  let s := (← frame).signature
  if s.result.acceptsAssign actual then
    if s.result.isUnit && !actual.isUnit then returnUnit else returnTop s.result
    ensureNoOperands text span
  else failReturn s actual span

/-- Returns what the last statement, which is not a return, left behind. -/
def returnLeft (span : Span) : Gen Unit := do
  let fr ← frame
  let s := fr.signature
  match fr.operands.types with
  | [] =>
    if s.result.isUnit then do
      emit (·.unit)
      returnTop .unit
    else .fail ⟨.internal (.noValueLeft s.result) s.name, span⟩
  | [_] => do
    let actual ← popTy s.name span
    if actual = s.result then returnTop s.result
    else if s.result.acceptsDiscarding then returnUnit
    else failReturn s actual span
  | _ => ensureNoOperands s.name span

/-- Drops all values that a statement left behind. -/
def dropOperands : Gen Unit :=
  modifyFrame fun fr =>
    { fr with
      emitter := fr.operands.types.foldl (fun e _ => e.pop) fr.emitter
      operands := {} }

/-! ## The frame of a body -/

/-- Gives a parameter its slot and describes it. -/
def declareParam (ctx : CodeContext) (p : Param) : Gen Unit := do
  let fr ← frame
  discard (scope (Scope.declare p.name p.ty fr.signature.name fr.site))
  if ctx.options.debugInfo then emit (·.param ⟨p.name, p.ty.descriptor⟩)

/-- Gives all parameters their slots. -/
def declareParams (ctx : CodeContext) : List Param → Gen Unit
  | [] => pure ()
  | p :: ps => do
    declareParam ctx p
    declareParams ctx ps

/-- Describes all arguments as valid between two offsets. -/
def recordRanges (start stop : Nat) : Gen Unit :=
  modifyFrame fun fr =>
    { fr with
      emitter := fr.scope.toList.foldl (fun e v => e.range (v.range start stop)) fr.emitter }

/-- Puts the code of a body between its labels, and describes it if descriptions are wanted. -/
def framed (ctx : CodeContext) (code : Gen Unit) : Gen Unit := do
  declareParams ctx (← frame).signature.params
  let start ← label
  code
  let stop ← label
  if ctx.options.debugInfo then recordRanges start stop

/-- The body that consists of one return statement. -/
def returnBody (ctx : CodeContext) (text : String) (span : Span) (value : Gen Ty) : Gen Unit :=
  framed ctx do
    setLine ctx span.line
    returnValue text span value

end Gen

/-- Registers a function, compiles its body, and gives it its code.  If the body fails the
registration is taken back. -/
def Session.compileWith (s : Signature) (flags : EntryFlags) (site : Span) (depth : Nat)
    (body : Gen Unit) : Attempt Session Unit := do
  declare s flags site
  let outcome ← fun session =>
    match body ⟨session, .start s site depth⟩ with
    | (r, w) => (.ok (r, w.frame), w.session)
  match outcome with
  | (.ok (), fr) => define s.name (fr.emitter.finish fr.scope.maxLocals) site
  | (.error e, _) =>
    record (.abandoned s.name e)
    abandon s.name
    .fail e

end BlockCompiler

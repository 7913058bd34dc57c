import BlockCompiler.Proofs.StoredReals

/-!
# What the records of a function say

With debug records, the code of a function comes with the line of every byte, with its parameters, and with
the ranges in which they live.  The line is a state of the emitter.  It is set once for each statement, and
what the statement consists of is written by many steps, between which whole other functions are compiled.

* `Gen.pieces` compiles the statements of a body like `Gen.stmts` and returns the bytes that each of them
  made; `Gen.discard_pieces` says that this is all of the difference.
* `Gen.OnLine` says that a step wrote on the current line, and nothing else.  `Gen.step_onLine` is the step
  for one statement, and `Gen.pieces_eq_ok` the induction on the statements.
* `Gen.describes_of_bodyPieces` adds what surrounds them.
* `Block.SourceOf` lists what functions are compiled from, and `Block.madeOf_session` carries this through a
  whole compilation.
-/

namespace BlockCompiler

/-! ## Chunks -/

namespace Chunk

private theorem append_toList_append {α : Type} (xs : Array α) (as bs : List α) :
    xs ++ (as ++ bs) = xs ++ as ++ bs :=
  Array.toList_inj.1 (by simp)

theorem writeBytes_nil (c : Chunk) (line : Nat) : c.writeBytes [] line = c := by simp [writeBytes]

theorem writeBytes_append (c : Chunk) (bytes bytes' : List UInt8) (line : Nat) :
    c.writeBytes (bytes ++ bytes') line = (c.writeBytes bytes line).writeBytes bytes' line := by
  simp only [writeBytes, List.length_append, List.replicate_add, append_toList_append]

/-- Appends bytes in pieces, each on its own line. -/
def writePieces (c : Chunk) : List (List UInt8) → List Nat → Chunk
  | piece :: pieces, line :: lines => (c.writeBytes piece line).writePieces pieces lines
  | _, _ => c

/-- The lines of bytes in pieces. -/
def pieceLines (pieces : List (List UInt8)) (lines : List Nat) : List Nat :=
  (List.zipWith (fun piece line => List.replicate piece.length line) pieces lines).flatten

/-- Only code and lines change when code is written. -/
theorem writePieces_eq : ∀ (pieces : List (List UInt8)) (lines : List Nat) (c : Chunk),
    pieces.length = lines.length → c.writePieces pieces lines =
      { c with code := c.code ++ pieces.flatten, lines := c.lines ++ pieceLines pieces lines }
  | [], [], c, _ => by simp [writePieces, pieceLines]
  | piece :: pieces, line :: lines, c, h => by
    rw [writePieces, writePieces_eq pieces lines _ (by simpa using h)]
    simp only [writeBytes, pieceLines, List.flatten_cons, List.zipWith_cons_cons, append_toList_append]

end Chunk

namespace Emitter

/-- Instructions are written on the current line. -/
theorem chunk_writeAll (e : Emitter) (p : Pool) (ms : List Emitted) :
    (e.writeAll p ms).chunk = e.chunk.writeBytes (codeBytes p (instrs ms)) e.line ∧
      (e.writeAll p ms).line = e.line := by
  induction ms generalizing e with
  | nil => exact ⟨(e.chunk.writeBytes_nil e.line).symm, rfl⟩
  | cons m ms ih =>
    obtain ⟨hchunk, hline⟩ := ih (e.writeInstr p m)
    refine ⟨?_, hline⟩
    rw [instrs_cons, codeBytes_cons, Chunk.writeBytes_append]
    exact hchunk

/-- Records of parameters change nothing else. -/
theorem foldl_param (record : Param → ParamRecord) (ps : List Param) (e : Emitter) :
    ps.foldl (fun e p => e.param (record p)) e =
      { e with chunk := { e.chunk with params := e.chunk.params ++ ps.map record } } := by
  induction ps generalizing e with
  | nil => simp
  | cons p ps ih =>
    rw [List.foldl_cons, ih]
    simp [param, Chunk.addParam]

/-- Records of ranges change nothing else. -/
theorem foldl_range (record : LocalVar → LocalRange) (vs : List LocalVar) (e : Emitter) :
    vs.foldl (fun e v => e.range (record v)) e =
      { e with chunk := { e.chunk with ranges := e.chunk.ranges ++ vs.map record } } := by
  induction vs generalizing e with
  | nil => simp
  | cons v vs ih =>
    rw [List.foldl_cons, ih]
    simp [range, Chunk.addRange]

end Emitter

/-! ## Statements -/

/-- The lines of the statements of a body.  A body without statements is on no line. -/
def Stmt.lines : List Stmt → List Nat
  | [] => [0]
  | s :: rest => (s :: rest).map (·.span.line)

namespace Gen

variable {ctx : CodeContext} {w w₁ w' : Workbench}

/-- The code of a statement and what comes after it: the return, or the drop of what it left. -/
def step (ctx : CodeContext) (s : Stmt) (rest : List Stmt) : Gen Unit := do
  setLine ctx s.span.line
  stmt ctx s
  match rest with
  | [] => if s.isRet then pure () else returnLeft s.span
  | _ :: _ => dropOperands

/-- Runs a step and returns the bytes that it wrote. -/
def written (x : Gen Unit) : Gen (List UInt8) := do
  let start := (← frame).emitter.offset
  x
  pure ((← frame).emitter.chunk.code.toList.drop start)

/-- The code of the statements of a body, and the bytes that each of them has. -/
def pieces (ctx : CodeContext) : List Stmt → Gen (List (List UInt8))
  | [] => do
    let piece ← written do returnLeft (← frame).site
    pure [piece]
  | s :: rest => do
    let piece ← written (step ctx s rest)
    match rest with
    | [] => pure [piece]
    | _ :: _ => do
      let others ← pieces ctx rest
      pure (piece :: others)

/-- The code of a function body, and the bytes that each of its statements has. -/
def bodyPieces (ctx : CodeContext) (ss : List Stmt) : Gen (List (List UInt8)) := do
  declareParams ctx (← frame).signature.params
  let start ← label
  let result ← pieces ctx ss
  let stop ← label
  if ctx.options.debugInfo then recordRanges start stop
  pure result

theorem discard_bind {α β : Type} (x : Gen α) (f : α → Gen β) :
    discard (x >>= f) = x >>= fun a => discard (f a) := by
  show (x >>= f) >>= (fun _ => pure ()) = _
  rw [bind_assoc]
  rfl

theorem discard_then {α β : Type} (x : Gen α) (y : Gen β) : (discard x >>= fun _ => y) = x >>= fun _ => y := by
  show (x >>= fun _ => pure ()) >>= _ = _
  rw [bind_assoc]
  rfl

/-- To forget the bytes is to run the step. -/
theorem written_bind {β : Type} (x : Gen Unit) (y : Gen β) :
    (written x >>= fun _ => y) = x >>= fun _ => y := by
  funext w
  simp only [written, Attempt.bind_run, frame]
  rcases x w with ⟨_ | _, _⟩ <;> rfl

/-- But for the pieces, the code of statements is compiled. -/
theorem discard_pieces : ∀ ss : List Stmt, discard (pieces ctx ss) = stmts ctx ss
  | [] => by
    rw [pieces, discard_bind]
    exact (written_bind _ (pure ())).trans (bind_pure_unit)
  | [s] => by
    rw [pieces, discard_bind]
    exact (written_bind _ (pure ())).trans bind_pure_unit
  | s :: s' :: rest => by
    have ih := discard_pieces (s' :: rest)
    have hrest (piece : List UInt8) : discard (do
        let others ← pieces ctx (s' :: rest)
        pure (piece :: others)) = stmts ctx (s' :: rest) := by
      rw [← ih]
      exact discard_bind _ _
    rw [pieces, discard_bind]
    simp only [hrest, written_bind, step, stmts, bind_assoc]

/-- But for the pieces, the body is compiled. -/
theorem discard_bodyPieces (ss : List Stmt) : discard (bodyPieces ctx ss) = body ctx ss := by
  rw [body, framed, ← discard_pieces ss]
  simp only [bodyPieces, discard_bind, discard_then]
  by_cases hdebug : ctx.options.debugInfo = true
  · simp only [if_pos hdebug, discard_bind]
    rfl
  · simp only [if_neg hdebug]
    rfl

/-! ## Writing on one line -/

/-- Between two states of a function, code was written on the current line, and nothing else. -/
structure OnLine (w w' : Workbench) : Prop where
  scope : w'.frame.scope = w.frame.scope
  line : w'.frame.emitter.line = w.frame.emitter.line
  chunk : ∃ bytes,
    w'.frame.emitter.chunk = w.frame.emitter.chunk.writeBytes bytes w.frame.emitter.line

theorem onLine_of_emitter_eq (hscope : w'.frame.scope = w.frame.scope)
    (hemitter : w'.frame.emitter = w.frame.emitter) : OnLine w w' := by
  refine ⟨hscope, by rw [hemitter], [], ?_⟩
  rw [hemitter, Chunk.writeBytes_nil]

instance : IsPreorder Workbench OnLine where
  refl _ := onLine_of_emitter_eq rfl rfl
  trans w w₁ w' h h' := by
    obtain ⟨bytes, hbytes⟩ := h.chunk
    obtain ⟨bytes', hbytes'⟩ := h'.chunk
    refine ⟨h'.scope.trans h.scope, h'.line.trans h.line, bytes ++ bytes', ?_⟩
    rw [hbytes', hbytes, h.line, Chunk.writeBytes_append]

theorem Added.onLine {ms : List Emitted} {ts : List Ty} (h : Added w w' ms ts) : OnLine w w' := by
  obtain ⟨hchunk, hline⟩ := w.frame.emitter.chunk_writeAll w'.session.pool ms
  refine ⟨h.scope, ?_, codeBytes w'.session.pool (instrs ms), ?_⟩
  · rw [h.frame]
    exact hline
  · rw [h.frame]
    exact hchunk

theorem onLine_emit {f : Emitter → Emitter} (hf : ∀ e, (f e).line = e.line ∧
    ∃ bytes, (f e).chunk = e.chunk.writeBytes bytes e.line) : Attempt.Keeps OnLine (emit f) :=
  fun w => ⟨rfl, (hf w.frame.emitter).1, (hf w.frame.emitter).2⟩

theorem onLine_returnTop (t : Ty) : Attempt.Keeps OnLine (returnTop t) :=
  onLine_emit fun _ => ⟨rfl, _, rfl⟩

theorem onLine_returnUnit : Attempt.Keeps OnLine returnUnit :=
  .bind (onLine_emit fun _ => ⟨rfl, _, rfl⟩) fun _ =>
    .bind (onLine_emit fun _ => ⟨rfl, _, rfl⟩) fun _ => onLine_returnTop .unit

theorem onLine_popTy (context : String) (span : Span) : Attempt.Keeps OnLine (popTy context span) := by
  intro w
  unfold popTy
  split <;> exact onLine_of_emitter_eq rfl rfl

theorem onLine_returnLeft (span : Span) : Attempt.Keeps OnLine (returnLeft span) := by
  refine .bind (Attempt.keeps_of_snd_eq fun _ => rfl) fun fr => ?_
  dsimp only
  split
  · split
    · exact .bind (onLine_emit fun _ => ⟨rfl, _, rfl⟩) fun _ => onLine_returnTop .unit
    · exact Attempt.keeps_fail _
  · refine .bind (onLine_popTy _ _) fun actual => ?_
    split
    · exact onLine_returnTop _
    · split
      · exact onLine_returnUnit
      · exact Attempt.keeps_fail _
  · exact Attempt.keeps_of_snd_eq fun _ => rfl

theorem onLine_dropOperands : Attempt.Keeps OnLine dropOperands := by
  intro w
  obtain ⟨hchunk, hline⟩ := w.frame.emitter.chunk_writeAll w.session.pool
    (w.frame.operands.types.map fun _ => .of .pop)
  rw [← foldl_pop_eq] at hchunk hline
  exact ⟨rfl, hline, _, hchunk⟩

/-- What comes after a statement is written on its line. -/
theorem step_onLine (hdebug : ctx.options.debugInfo = true) {s : Stmt} {rest : List Stmt}
    (h : step ctx s rest w = (.ok (), w')) :
    OnLine { w with frame.emitter := w.frame.emitter.setLine s.span.line } w' := by
  obtain ⟨_, w₁, hline, hrest⟩ := Attempt.bind_eq_ok.1 h
  -- Without debug records the line would not be set, and all bytes would be on line 0.
  rw [setLine, if_pos hdebug] at hline
  cases hline
  obtain ⟨_, w₂, hstmt, hend⟩ := Attempt.bind_eq_ok.1 hrest
  obtain ⟨ms, ts, hadded, -⟩ := stmt_added hstmt
  have hended : OnLine w₂ w' := by
    cases rest with
    | nil =>
      dsimp only at hend
      split at hend
      · cases hend
        exact refl_of OnLine w'
      · exact (onLine_returnLeft _).of_run hend
    | cons => exact onLine_dropOperands.of_run hend
  exact trans_of OnLine hadded.onLine hended

/-! ## Pieces -/

theorem written_eq_ok {x : Gen Unit} {piece : List UInt8} (h : written x w = (.ok piece, w')) :
    x w = (.ok (), w') ∧ piece = w'.frame.emitter.chunk.code.toList.drop w.frame.emitter.offset := by
  obtain ⟨fr, _, hframe, hrest⟩ := Attempt.bind_eq_ok.1 h
  cases hframe
  obtain ⟨_, w₁, hrun, hrest⟩ := Attempt.bind_eq_ok.1 hrest
  cases hrest
  exact ⟨hrun, rfl⟩

/-- What was written on a line is one piece of code on it. -/
theorem OnLine.chunk_of_written {x : Gen Unit} {piece : List UInt8} {line : Nat}
    (hx : written x w = (.ok piece, w'))
    (h : OnLine { w with frame.emitter := w.frame.emitter.setLine line } w') :
    w'.frame.emitter.chunk = w.frame.emitter.chunk.writeBytes piece line := by
  obtain ⟨bytes, hchunk⟩ := h.chunk
  obtain ⟨-, rfl⟩ := written_eq_ok hx
  have hchunk : w'.frame.emitter.chunk = w.frame.emitter.chunk.writeBytes bytes line := hchunk
  have hsize : w.frame.emitter.offset = w.frame.emitter.chunk.code.toList.length := rfl
  rw [hchunk, Chunk.code_writeBytes, hsize, List.drop_left]

/-- The pieces of statements are all that is written, each on the line of its statement. -/
theorem pieces_eq_ok (hdebug : ctx.options.debugInfo = true) : ∀ {ss : List Stmt} {w w' : Workbench}
    {result : List (List UInt8)}, pieces ctx ss w = (.ok result, w') →
      (ss = [] → w.frame.emitter.line = 0) →
      result.length = (Stmt.lines ss).length ∧ w'.frame.scope = w.frame.scope ∧
        w'.frame.emitter.chunk = w.frame.emitter.chunk.writePieces result (Stmt.lines ss)
  | [], w, w', result, h, hzero => by
    obtain ⟨piece, w₁, hpiece, hrest⟩ := Attempt.bind_eq_ok.1 h
    cases hrest
    -- No statement has set a line, so the return is written on that of a new emitter.
    have hkeeps : Attempt.Keeps OnLine (do returnLeft (← frame).site) :=
      .bind (Attempt.keeps_of_snd_eq fun _ => rfl) fun fr => onLine_returnLeft fr.site
    obtain ⟨hscope, hline, hchunk⟩ := hkeeps.of_run (written_eq_ok hpiece).1
    rw [hzero rfl] at hline hchunk
    have honLine : OnLine { w with frame.emitter := w.frame.emitter.setLine 0 } w' := ⟨hscope, hline, hchunk⟩
    exact ⟨rfl, hscope, honLine.chunk_of_written hpiece⟩
  | [s], w, w', result, h, _ => by
    obtain ⟨piece, w₁, hpiece, hrest⟩ := Attempt.bind_eq_ok.1 h
    cases hrest
    have honLine := step_onLine hdebug (written_eq_ok hpiece).1
    exact ⟨rfl, honLine.scope, honLine.chunk_of_written hpiece⟩
  | s :: s' :: rest, w, w', result, h, _ => by
    obtain ⟨piece, w₁, hpiece, hrest⟩ := Attempt.bind_eq_ok.1 h
    obtain ⟨others, w₂, hothers, hrest⟩ := Attempt.bind_eq_ok.1 hrest
    cases hrest
    have honLine := step_onLine hdebug (written_eq_ok hpiece).1
    obtain ⟨hlength, hscope, hchunk⟩ := pieces_eq_ok hdebug hothers nofun
    refine ⟨congrArg Nat.succ hlength, hscope.trans honLine.scope, ?_⟩
    rw [hchunk, honLine.chunk_of_written hpiece]
    rfl

end Gen

/-! ## Records -/

/-- The record of a parameter. -/
def Param.record (p : Param) : ParamRecord := ⟨p.name, p.ty.descriptor⟩

/-- The record of a parameter at a position, which is its slot. -/
def Param.range (start stop i : Nat) (p : Param) : LocalRange :=
  ⟨p.name, p.ty.descriptor, UInt16.ofNat i, start, stop⟩

/-- The arguments of a function are its parameters, in the order of their slots. -/
theorem Scope.ranges_ofParams (ps : List Param) (start stop : Nat) :
    (ofParams ps).toList.map (·.range start stop) = ps.mapIdx (Param.range start stop) := by
  induction ps using List.reverseRecOn with
  | nil => rfl
  | append_singleton ps p ih =>
    have hpush (sc : Scope) : (sc.push p.name p.ty).toList =
        sc.toList ++ [⟨p.name, p.ty, UInt16.ofNat sc.size⟩] := Array.toList_push
    rw [ofParams_concat, hpush, List.map_append, ih, size_ofParams, List.mapIdx_concat]
    rfl

/-- The records of a chunk describe a function with this signature, and its code consists of the pieces that
the statements of its body made, each on the line of its statement. -/
structure Chunk.Describes (chunk : Chunk) (s : Signature) (ss : List Stmt)
    (pieces : List (List UInt8)) : Prop where
  params : chunk.params.toList = s.params.map Param.record
  slots : s.params.length ≤ 65536
  ranges : chunk.ranges.toList = s.params.mapIdx (Param.range 0 chunk.size)
  labels : chunk.labels.toList = [0, chunk.size]
  length : pieces.length = (Stmt.lines ss).length
  code : chunk.code.toList = pieces.flatten
  lines : chunk.lines.toList = Chunk.pieceLines pieces (Stmt.lines ss)

namespace Gen

variable {ctx : CodeContext} {S : Session} {s : Signature} {site : Span} {depth : Nat} {w w' : Workbench}

theorem emitter_declareParams (hdebug : ctx.options.debugInfo = true) {ps : List Param}
    (h : declareParams ctx ps w = (.ok (), w')) :
    w'.frame.emitter =
      ps.foldl (fun e p => e.param p.record) w.frame.emitter := by
  induction ps generalizing w with
  | nil =>
    cases h
    rfl
  | cons p ps ih =>
    obtain ⟨_, w₁, hparam, hparams⟩ := Attempt.bind_eq_ok.1 h
    obtain ⟨fr, _, hframe, hrest⟩ := Attempt.bind_eq_ok.1 hparam
    cases hframe
    obtain ⟨_, w₂, hscope, hrecord⟩ := Attempt.bind_eq_ok.1 hrest
    obtain ⟨slot, hscope⟩ := Attempt.discard_eq_ok.1 hscope
    have hscoped : w₂.frame.emitter = w.frame.emitter :=
      (congrArg (·.2.frame.emitter) hscope).symm
    rw [if_pos hdebug] at hrecord
    cases hrecord
    rw [ih hparams, List.foldl_cons, ← hscoped]
    rfl

/-- Before the code of a body there are the records of its parameters and a label. -/
theorem emitter_opened (hdebug : ctx.options.debugInfo = true) {start : Nat} {w₁ : Workbench}
    (hparams : declareParams ctx s.params ⟨S, .start s site depth⟩ = (.ok (), w₁))
    (hstart : label w₁ = (.ok start, w)) :
    start = 0 ∧ w.frame.scope = .ofParams s.params ∧ w.frame.emitter =
      { chunk := { params := (s.params.map Param.record).toArray, labels := #[0] } } := by
  have hopened := opened_of_declareParams hparams
  have hemitter := (emitter_declareParams hdebug hparams).trans (Emitter.foldl_param _ _ _)
  cases hstart
  refine ⟨congrArg Array.size hopened.code, hopened.scope, ?_⟩
  simp [hemitter, Frame.start, Emitter.label, Chunk.addLabel]

/-- After it there are a label and the records of its arguments. -/
theorem emitter_closed {start stop : Nat} {w₁ : Workbench} (hscope : w.frame.scope = .ofParams s.params)
    (hstop : label w = (.ok stop, w₁)) (hranges : recordRanges start stop w₁ = (.ok (), w')) :
    w'.frame.emitter.chunk =
      { w.frame.emitter.chunk with
        labels := w.frame.emitter.chunk.labels.push w.frame.emitter.chunk.size
        ranges := w.frame.emitter.chunk.ranges ++
          s.params.mapIdx (Param.range start w.frame.emitter.chunk.size) } := by
  cases hstop
  cases hranges
  show (w.frame.scope.toList.foldl _ w.frame.emitter.label.1).chunk = _
  rw [Emitter.foldl_range, hscope, Scope.ranges_ofParams]
  rfl

/-- A body that was compiled leaves records that describe it. -/
theorem describes_of_bodyPieces (hdebug : ctx.options.debugInfo = true) {ss : List Stmt}
    {result : List (List UInt8)}
    (h : bodyPieces ctx ss ⟨S, .start s site depth⟩ = (.ok result, w')) :
    (w'.frame.emitter.finish w'.frame.scope.maxLocals).Describes s ss result := by
  obtain ⟨fr, _, hframe, hrest⟩ := Attempt.bind_eq_ok.1 h
  cases hframe
  obtain ⟨_, w₁, hparams, hrest⟩ := Attempt.bind_eq_ok.1 hrest
  have hparams : declareParams ctx s.params ⟨S, .start s site depth⟩ = (.ok (), w₁) := hparams
  obtain ⟨start, w₂, hstart, hrest⟩ := Attempt.bind_eq_ok.1 hrest
  obtain ⟨_, w₃, hpieces, hrest⟩ := Attempt.bind_eq_ok.1 hrest
  obtain ⟨stop, w₄, hstop, hrest⟩ := Attempt.bind_eq_ok.1 hrest
  simp only [if_pos hdebug] at hrest
  obtain ⟨_, w₅, hranges, hrest⟩ := Attempt.bind_eq_ok.1 hrest
  cases hrest
  obtain ⟨rfl, hscope, hopened⟩ := emitter_opened hdebug hparams hstart
  obtain ⟨hlength, hscope', hwritten⟩ := pieces_eq_ok hdebug hpieces fun _ => by rw [hopened]
  rw [Chunk.writePieces_eq _ _ _ hlength, hopened] at hwritten
  have hclosed := emitter_closed (hscope'.trans hscope) hstop hranges
  rw [hwritten] at hclosed
  have harity := (opened_of_declareParams hparams).arity
  refine ⟨?_, harity, ?_, ?_, hlength, ?_, ?_⟩ <;>
    simp [Emitter.finish, Chunk.setFrame, Chunk.size, hclosed]

/-- To return an expression is a body of one statement. -/
theorem returnBody_eq_body (ctx : CodeContext) (e : Expr) (span : Span) :
    returnBody ctx e.text span (value ctx e) = body ctx [.ret e span] := by
  show _ = framed ctx (setLine ctx span.line >>= fun _ => returnValue e.text span (value ctx e) >>= fun _ => pure ())
  rw [bind_pure_unit]
  rfl

/-- A wrapped constant leaves an instruction of three bytes behind, on the line that was the current one. -/
theorem promote_eq_ok {e : Expr} {params : List Ty} {result : Ty}
    (h : promote ctx e params result (value ctx e) w = (.ok (), w')) :
    w'.frame.emitter.line = w.frame.emitter.line ∧ ∃ bytes, bytes.length = 3 ∧
      w'.frame.emitter.chunk = w.frame.emitter.chunk.writeBytes bytes w.frame.emitter.line := by
  obtain ⟨s, hadded⟩ := added_promote h
  have hframe := hadded.frame
  refine ⟨by rw [hframe]; rfl, (Instr.bind s.toValue).bytes w'.session.pool, rfl, ?_⟩
  rw [hframe]
  rfl

end Gen

/-! ## Blocks -/

/-- The statements that a function with a signature is compiled from, with their places.  The body of an
anonymous function is returned where the function stands, and a wrapped expression where it stands itself. -/
inductive Block.SourceOf (block : Block) (functions : FunctionTable) (options : Options) :
    Signature → List Stmt → Prop where
  | decl {d : Decl} {s : Signature} (hd : d ∈ block.decls) (hs : functions.get? d.name.name = some s) :
    SourceOf block functions options s d.body
  | lambda {body : Expr} {text : String} {span : Span} (id : Nat) (result : Ty)
    (he : Expr.lambda body text span ∈ block.exprs) :
    SourceOf block functions options (Hoist.lambdaSignature id body result options.owner) [.ret body span]
  | wrapper {e : Expr} (id : Nat) (params : List Ty) (result : Ty) (he : e ∈ block.exprs) :
    SourceOf block functions options (Gen.wrapperSignature id params result options.owner) [.ret e e.span]

/-- Whether a chunk is left when a function with this signature is compiled from some statements, and these
are the bytes that each of them made. -/
def Gen.Leaves (functions : FunctionTable) (options : Options) (s : Signature) (ss : List Stmt)
    (pieces : List (List UInt8)) (chunk : Chunk) : Prop :=
  ∃ lambdas S site depth w,
    bodyPieces ⟨functions, options, lambdas⟩ ss ⟨S, .start s site depth⟩ = (.ok pieces, w) ∧
      chunk = w.frame.emitter.finish w.frame.scope.maxLocals

/-- Whether a chunk is left when a function of a block is compiled. -/
def Block.MadeOf (functions : FunctionTable) (options : Options) (block : Block) : CodeProperty :=
  fun _ s chunk => ∃ ss pieces, block.SourceOf functions options s ss ∧
    Gen.Leaves functions options s ss pieces chunk

namespace Gen

variable {ctx : CodeContext} {block : Block} {S : Session} {s : Signature} {site : Span} {depth : Nat}
  {w : Workbench}

theorem madeOf_of_body {ss : List Stmt} (hss : block.SourceOf ctx.functions ctx.options s ss)
    (h : body ctx ss ⟨S, .start s site depth⟩ = (.ok (), w)) :
    block.MadeOf ctx.functions ctx.options w.session.pool s
      (w.frame.emitter.finish w.frame.scope.maxLocals) := by
  rw [← discard_bodyPieces] at h
  obtain ⟨pieces, hrun⟩ := Attempt.discard_eq_ok.1 h
  exact ⟨ss, pieces, hss, ctx.lambdas, S, site, depth, w, hrun, rfl⟩

theorem returnHas_madeOf {e : Expr} {span : Span}
    (he : block.SourceOf ctx.functions ctx.options s [.ret e span]) :
    ReturnHas (block.MadeOf ctx.functions ctx.options) ctx e span s := by
  intro S site depth w h
  rw [returnBody_eq_body] at h
  exact madeOf_of_body he h

end Gen

namespace Block

variable (block : Block) (functions : FunctionTable) (options : Options)

/-- All code of a block is left by the compilation of its functions. -/
theorem madeOf_session :
    (block.session functions options).AllCode (block.MadeOf functions options) := by
  have hP : CodeProperty.Survives (block.MadeOf functions options) := fun _ _ _ _ h _ => h
  have hwrapper {e : Expr} (he : e ∈ block.exprs) (lambdas : LambdaTable) :
      Gen.WrapperHas (block.MadeOf functions options) ⟨functions, options, lambdas⟩ e :=
    fun id params result => Gen.returnHas_madeOf (.wrapper id params result he)
  refine allCode_session hP (fun body text span he _ _ _ _ => ?_) fun w _ d hd => ?_
  · refine Hoist.lambda_keepsCode hP (fun lambdas id result => ?_) fun lambdas e hmem => ?_
    · exact Gen.returnHas_madeOf (.lambda id result he)
    · exact hwrapper (mem_exprs_of_mem_subexprs hmem (body_mem_exprs he)) lambdas
  · refine Session.keepsCode_compileDecl hP (fun e hmem => ?_) fun hs hrun => ?_
    · exact hwrapper (mem_exprs_of_mem_decls hd e hmem) w.table
    · exact Gen.madeOf_of_body (.decl hd hs) hrun

end Block

/-- With debug records, the records of each function in a module describe its code.

Its parameters are recorded in order, with their names and descriptors, and so are their ranges.  Each has its
position as its slot and reaches from the start of the code to its end.  There is a label at either end.  The
code consists of one piece for each statement that the function was compiled from, in order: what was written
for the statement itself, for dropping what it left, and for returning after the last one.  All bytes of a piece
are on the line of its statement.  A body without statements is one piece on line 0.

The pieces are those of the compilation that made the code; to forget them is to compile the body.  While a
constant is wrapped, a whole function is compiled, but the function around it only gets one instruction, on the
line of the statement that it is in. -/
theorem records_describe_code (functions : FunctionTable) (options : Options) (block : Block)
    (hdebug : options.debugInfo = true) :
    (∀ entry ∈ (compileBlock functions options block).module.functions, ∃ chunk ss pieces,
      entry.code? = some chunk ∧ block.SourceOf functions options entry.signature ss ∧
      Gen.Leaves functions options entry.signature ss pieces chunk ∧
      chunk.Describes entry.signature ss pieces) ∧
    (∀ ctx ss, discard (Gen.bodyPieces ctx ss) = Gen.body ctx ss) ∧
    ∀ ctx e params result w w',
      Gen.promote ctx e params result (Gen.value ctx e) w = (.ok (), w') →
        w'.frame.emitter.line = w.frame.emitter.line ∧ ∃ bytes, bytes.length = 3 ∧
          w'.frame.emitter.chunk = w.frame.emitter.chunk.writeBytes bytes w.frame.emitter.line := by
  refine ⟨fun entry hentry => ?_, fun _ => Gen.discard_bodyPieces, fun _ _ _ _ _ _ => Gen.promote_eq_ok⟩
  obtain ⟨chunk, hchunk⟩ := Block.exists_code_of_mem hentry
  obtain ⟨ss, pieces, hsource, hleaves⟩ :=
    Block.code_has_of_mem (block.madeOf_session functions options) hentry hchunk
  refine ⟨chunk, ss, pieces, hchunk, hsource, hleaves, ?_⟩
  obtain ⟨lambdas, S, site, depth, w, hrun, rfl⟩ := hleaves
  exact Gen.describes_of_bodyPieces hdebug hrun

/-- A function that takes a function, and one with a real parameter. -/
def linesFunctions : FunctionTable :=
  .ofList
    [⟨"apply", [⟨"f", .fn [] .real⟩], .real, "Main", false⟩, ⟨"area", [⟨"side", .real⟩], .real, "Main", false⟩]

/-- A block whose function passes a constant to a function on line 2 and returns its parameter on line 5. -/
def linesBlock : Block :=
  ⟨[.decl ⟨"area", .point 1 1⟩
    [.expr (.call ⟨"apply", .point 2 1⟩ [.literal (.real ⟨0⟩) "0.0" (.point 2 7)] "apply(0.0)" (.point 2 1)),
      .ret (.var ⟨"side", .point 5 8⟩) (.point 5 1)] (.point 1 1)]⟩

/-- In `linesBlock`, where a constant is wrapped on the way, a statement on line 2 makes eight bytes, and one on
line 5 makes four. -/
theorem records_describe_code_linesBlock :
    ({} : Options).debugInfo = true ∧
      ∃ entry ∈ (compileBlock linesFunctions {} linesBlock).module.functions, ∃ chunk pieces,
        entry.code? = some chunk ∧ pieces.length = 2 ∧ chunk.code.toList = pieces.flatten ∧
        chunk.lines.toList = Chunk.pieceLines pieces [2, 5] ∧
        chunk.lines.toList = [2, 2, 2, 2, 2, 2, 2, 2, 5, 5, 5, 5] ∧
        chunk.params.toList = [⟨"side", "R"⟩] ∧ chunk.ranges.toList = [⟨"side", "R", 0, 0, 12⟩] ∧
        chunk.labels.toList = [0, 12] := by
  have hentry : ((compileBlock linesFunctions {} linesBlock).module.function? "area").map
      (fun e => (e.signature, e.code?.map fun c => (c.size, c.lines.toList))) =
      some (⟨"area", [⟨"side", .real⟩], .real, "Main", false⟩,
        some (12, [2, 2, 2, 2, 2, 2, 2, 2, 5, 5, 5, 5])) := by
    decide +kernel
  obtain ⟨entry, hfound, hentry⟩ := Option.map_eq_some_iff.1 hentry
  obtain ⟨hsignature, hcounted⟩ := Prod.mk.inj hentry
  have hmem := Module.mem_of_function? hfound
  obtain ⟨chunk, ss, pieces, hchunk, hsource, -, hdescribes⟩ :=
    (records_describe_code linesFunctions {} linesBlock rfl).1 entry hmem
  rw [hchunk] at hcounted
  obtain ⟨hsize, hlines⟩ := Prod.mk.inj (Option.some.inj hcounted)
  have hss : Stmt.lines ss = [2, 5] := by
    generalize entry.signature = s at hsource hsignature
    cases hsource with
    | decl hd hs =>
      obtain rfl := List.mem_singleton.1 hd
      rfl
    | lambda =>
      have hparams : [lambdaParam] = [⟨"side", .real⟩] := congrArg Signature.params hsignature
      exact absurd hparams (by decide)
    | wrapper => cases congrArg Signature.isPure hsignature
  obtain ⟨hparams, -, hranges, hlabels, hlength, hcode, hpieces⟩ := hdescribes
  rw [hss] at hlength hpieces
  rw [hsignature, hsize] at hranges
  rw [hsize] at hlabels
  rw [hsignature] at hparams
  exact ⟨rfl, entry, hmem, chunk, pieces, hchunk, hlength, hcode, hpieces, hlines, hparams, hranges, hlabels⟩

end BlockCompiler

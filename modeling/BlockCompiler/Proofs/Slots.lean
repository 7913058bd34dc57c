import Mathlib.Data.List.Induction
import BlockCompiler.Proofs.Running

/-!
# The slots of parameters

`Scope.ofParams` is the scope in which the parameters of a function have their slots, in order.  A name
that is found there is the name of the parameter in its slot, and `Gen.declareParams_eq_ok` says that
a function whose parameters could be declared sees this scope, has parameters of different names, and
no more of them than there are slots.
-/

namespace BlockCompiler

namespace Scope

/-- The scope after parameters got the next slots. -/
def pushAll (sc : Scope) (ps : List Param) : Scope := ps.foldl (fun sc p => sc.push p.name p.ty) sc

/-- The scope of a function with these parameters. -/
def ofParams (ps : List Param) : Scope := empty.pushAll ps

theorem size_pushAll (sc : Scope) (ps : List Param) : (sc.pushAll ps).size = sc.size + ps.length := by
  induction ps generalizing sc with
  | nil => rfl
  | cons p ps ih =>
    rw [pushAll, List.foldl_cons, ← pushAll, ih, size_push, List.length_cons]
    omega

theorem size_ofParams (ps : List Param) : (ofParams ps).size = ps.length := by
  rw [ofParams, size_pushAll]
  simp [empty, size]

theorem ofParams_concat (ps : List Param) (p : Param) :
    ofParams (ps ++ [p]) = (ofParams ps).push p.name p.ty := by
  simp [ofParams, pushAll]

/-- What is found under a name is a parameter of that name, in its slot. -/
theorem get?_ofParams_eq_some {ps : List Param} {name : String} {v : LocalVar}
    (h : (ofParams ps).get? name = some v) :
    ∃ (i : Nat) (p : Param), ps[i]? = some p ∧ p.name = name ∧ v = ⟨name, p.ty, UInt16.ofNat i⟩ := by
  induction ps using List.reverseRecOn with
  | nil => simp [ofParams, pushAll] at h
  | append_singleton ps p ih =>
    rw [ofParams_concat, get?_push] at h
    split at h
    next hname =>
      refine ⟨ps.length, p, by simp, hname, ?_⟩
      rw [← Option.some.inj h, size_ofParams, hname]
    next =>
      obtain ⟨i, q, hq, hname, hv⟩ := ih h
      refine ⟨i, q, ?_, hname, hv⟩
      rw [List.getElem?_append_left (List.getElem?_eq_some_iff.1 hq).1, hq]

/-- In the slot of what is found under a name is the parameter of that name. -/
theorem getElem?_slot {ps : List Param} {name : String} {v : LocalVar}
    (harity : ps.length ≤ slotLimit) (h : (ofParams ps).get? name = some v) :
    ps[v.slot.toNat]? = some ⟨name, v.ty⟩ := by
  obtain ⟨i, p, hp, rfl, rfl⟩ := get?_ofParams_eq_some h
  have hlt : i < 65536 := Nat.lt_of_lt_of_le (List.getElem?_eq_some_iff.1 hp).1 harity
  have hslot : (UInt16.ofNat i).toNat = i := by
    rw [UInt16.toNat_ofNat', Nat.mod_eq_of_lt hlt]
  simp only [hslot, hp]

/-- A name under which nothing is found is the name of no parameter. -/
theorem get?_ofParams_eq_none {ps : List Param} {name : String}
    (h : (ofParams ps).get? name = none) : ∀ p ∈ ps, p.name ≠ name := by
  induction ps using List.reverseRecOn with
  | nil => simp
  | append_singleton ps p ih =>
    rw [ofParams_concat, get?_push] at h
    split at h
    next => cases h
    next hname =>
      intro q hq
      rcases List.mem_append.1 hq with hq | hq
      · exact ih h q hq
      · rwa [List.mem_singleton.1 hq]

/-- A declaration that succeeds appends the parameter, which is new, in a slot that exists. -/
theorem declare_eq_ok {name function : String} {ty : Ty} {span : Span} {sc sc' : Scope}
    {slot : UInt16} (h : declare name ty function span sc = (.ok slot, sc')) :
    sc.get? name = none ∧ sc.size < slotLimit ∧ sc' = sc.push name ty := by
  unfold declare at h
  split at h
  · cases h
  next hfree =>
    split at h
    next hsize =>
      cases h
      refine ⟨?_, hsize, rfl⟩
      simpa [get?] using hfree
    next => cases h

end Scope

namespace Gen

variable {ctx : CodeContext}

/-- What declaring a parameter leaves alone. -/
theorem declareParam_eq_ok {p : Param} {w w' : Workbench}
    (h : declareParam ctx p w = (.ok (), w')) :
    w.frame.scope.get? p.name = none ∧ w.frame.scope.size < Scope.slotLimit ∧
      ∃ emitter : Emitter, emitter.chunk.code = w.frame.emitter.chunk.code ∧
        w' = { w with
          frame.scope := w.frame.scope.push p.name p.ty
          frame.emitter := emitter } := by
  obtain ⟨fr, _, hframe, hrest⟩ := Attempt.bind_eq_ok.1 h
  cases hframe
  obtain ⟨_, w₁, hscope, hrecord⟩ := Attempt.bind_eq_ok.1 hrest
  obtain ⟨slot, hscope⟩ := Attempt.discard_eq_ok.1 hscope
  rcases hdeclare : Scope.declare p.name p.ty w.frame.signature.name w.frame.site w.frame.scope
    with ⟨r, sc⟩
  have hrun : (scope (Scope.declare p.name p.ty w.frame.signature.name w.frame.site)) w =
      (r, { w with frame.scope := sc }) := by
    unfold scope
    simp only [hdeclare]
  rw [hrun] at hscope
  cases hscope
  obtain ⟨hfree, hsize, rfl⟩ := Scope.declare_eq_ok hdeclare
  refine ⟨hfree, hsize, ?_⟩
  split at hrecord
  next =>
    cases hrecord
    refine ⟨_, ?_, rfl⟩
    rfl
  next =>
    cases hrecord
    refine ⟨_, ?_, rfl⟩
    rfl

/-- Parameters that could be declared have different names, and slots. -/
theorem declareParams_eq_ok {ps : List Param} {w w' : Workbench}
    (h : declareParams ctx ps w = (.ok (), w')) :
    (∀ p ∈ ps, w.frame.scope.get? p.name = none) ∧ (ps.map Param.name).Nodup ∧
      (w.frame.scope.size ≤ Scope.slotLimit →
        w.frame.scope.size + ps.length ≤ Scope.slotLimit) ∧
      ∃ emitter : Emitter, emitter.chunk.code = w.frame.emitter.chunk.code ∧
        w' = { w with
          frame.scope := w.frame.scope.pushAll ps
          frame.emitter := emitter } := by
  induction ps generalizing w with
  | nil =>
    cases h
    refine ⟨by simp, by simp, by simp, _, ?_, rfl⟩
    rfl
  | cons p ps ih =>
    obtain ⟨_, w₁, hp, hps⟩ := Attempt.bind_eq_ok.1 h
    obtain ⟨hfree, hsize, emitter, hcode, rfl⟩ := declareParam_eq_ok hp
    obtain ⟨hfrees, hnodup, hsizes, emitter', hcode', rfl⟩ := ih hps
    dsimp only at hfrees hsizes hcode'
    have hne : ∀ q ∈ ps, p.name ≠ q.name ∧ w.frame.scope.get? q.name = none := by
      intro q hq
      have hq := hfrees q hq
      rw [Scope.get?_push] at hq
      split at hq
      · cases hq
      next hname => exact ⟨hname, hq⟩
    refine ⟨?_, ?_, ?_, emitter', hcode'.trans hcode, rfl⟩
    · intro q hq
      rcases List.mem_cons.1 hq with rfl | hq
      · exact hfree
      · exact (hne q hq).2
    · rw [List.map_cons, List.nodup_cons]
      refine ⟨fun hmem => ?_, hnodup⟩
      obtain ⟨q, hq, hname⟩ := List.mem_map.1 hmem
      exact (hne q hq).1 hname.symm
    · intro _
      rw [Scope.size_push] at hsizes
      have := hsizes hsize
      rw [List.length_cons]
      omega

end Gen

end BlockCompiler

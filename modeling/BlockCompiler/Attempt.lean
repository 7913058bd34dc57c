import BlockCompiler.Error

/-!
# Attempts

An `Attempt` is a computation over a state that may fail.  It hands its state back in either case:
a compilation that fails halfway leaves behind what it had finished.

Attempts compose in sequence, and the first failure ends the sequence.
-/

namespace BlockCompiler

/-- A computation over a state that may fail and keeps its state either way. -/
def Attempt (σ α : Type) : Type := σ → Except CompileError α × σ

namespace Attempt

variable {σ α β : Type}

instance : Monad (Attempt σ) where
  pure a := fun s => (.ok a, s)
  bind x f := fun s =>
    match x s with
    | (.ok a, s) => f a s
    | (.error e, s) => (.error e, s)

/-- The state. -/
def get : Attempt σ σ := fun s => (.ok s, s)

/-- Changes the state. -/
def modify (f : σ → σ) : Attempt σ Unit := fun s => (.ok (), f s)

/-- Fails. -/
def fail (e : CompileError) : Attempt σ α := fun s => (.error e, s)

/-- A result that does not touch the state. -/
def ofExcept (r : Except CompileError α) : Attempt σ α := fun s => (r, s)

/-- Changes the state, or fails and leaves it. -/
def update (f : σ → Except CompileError σ) : Attempt σ Unit := fun s =>
  match f s with
  | .ok s => (.ok (), s)
  | .error e => (.error e, s)

/-- Changes the state at the end, whether the attempt succeeds or fails. -/
def ending (x : Attempt σ α) (f : σ → σ) : Attempt σ α := fun s =>
  match x s with
  | (r, s) => (r, f s)

/-! ## Running -/

@[simp] theorem pure_run (a : α) (s : σ) : (pure a : Attempt σ α) s = (.ok a, s) := rfl

theorem bind_run (x : Attempt σ α) (f : α → Attempt σ β) (s : σ) :
    (x >>= f) s =
      match x s with
      | (.ok a, s) => f a s
      | (.error e, s) => (.error e, s) := rfl

private theorem id_map_aux (x : Attempt σ α) : id <$> x = x := by
  funext s
  show (match x s with
    | (.ok a, s) => (.ok a, s)
    | (.error e, s) => (.error e, s)) = x s
  rcases x s with ⟨_ | _, _⟩ <;> rfl

private theorem bind_assoc_aux {γ : Type} (x : Attempt σ α) (f : α → Attempt σ β)
    (g : β → Attempt σ γ) : x >>= f >>= g = x >>= fun a => f a >>= g := by
  funext s
  simp only [bind_run]
  rcases x s with ⟨_ | _, _⟩ <;> rfl

instance : LawfulMonad (Attempt σ) :=
  LawfulMonad.mk' (Attempt σ) id_map_aux (fun _ _ => rfl) bind_assoc_aux

end Attempt

end BlockCompiler

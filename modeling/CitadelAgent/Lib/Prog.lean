import Mathlib

/-!
# Programs over a signature of operations

`Prog Op Ans α` is the tree of a program that calls operations `o : Op`, gets an answer in `Ans o` to each, and returns
an `α`. Who answers is chosen later, so that one program can be run against a store, against a store that refuses
writes, or one call at a time between the calls of others.

* `Prog.run` : every call answered by one handler, which threads a state;
* `Prog.exec` : the same for a program that can stop with an error, `exec_bind` and `exec_bind_eq_ok` its rules;
* `Prog.Lockstep` : two runs from related states give equal results and related states, with a rule per construct.
-/

inductive Prog (Op : Type) (Ans : Op → Type) (α : Type)
  | ret (a : α)
  | call (o : Op) (next : Ans o → Prog Op Ans α)

namespace Prog

variable {Op Op' : Type} {Ans : Op → Type} {Ans' : Op' → Type} {α β σ ε : Type}

/-! ## The monad -/

def andThen : Prog Op Ans α → (α → Prog Op Ans β) → Prog Op Ans β
  | ret a, f => f a
  | call o next, f => call o fun answer => (next answer).andThen f

instance : Monad (Prog Op Ans) where
  pure := ret
  bind := andThen

def op (o : Op) : Prog Op Ans (Ans o) := call o ret

@[simp] theorem pure_eq_ret (a : α) : (pure a : Prog Op Ans α) = ret a := rfl

@[simp] theorem ret_bind (a : α) (f : α → Prog Op Ans β) : ret a >>= f = f a := rfl

@[simp] theorem call_bind (o : Op) (next : Ans o → Prog Op Ans α) (f : α → Prog Op Ans β) :
    call o next >>= f = call o fun answer => next answer >>= f := rfl

theorem map_id (x : Prog Op Ans α) : id <$> x = x := by
  induction x with
  | ret a => rfl
  | call o next ih => exact congrArg (call o) (funext ih)

theorem andThen_assoc {γ : Type} (x : Prog Op Ans α) (f : α → Prog Op Ans β) (g : β → Prog Op Ans γ) :
    x >>= f >>= g = x >>= fun a => f a >>= g := by
  induction x with
  | ret a => rfl
  | call o next ih => exact congrArg (call o) (funext ih)

instance : LawfulMonad (Prog Op Ans) := LawfulMonad.mk' _ map_id (fun _ _ => rfl) andThen_assoc

/-! ## One handler for every call -/

def run (handle : (o : Op) → σ → Ans o × σ) : Prog Op Ans α → σ → α × σ
  | ret a, s => (a, s)
  | call o next, s => run handle (next (handle o s).1) (handle o s).2

variable (handle : (o : Op) → σ → Ans o × σ)

@[simp] theorem run_ret (a : α) (s : σ) : run handle (ret a : Prog Op Ans α) s = (a, s) := rfl

@[simp] theorem run_op (o : Op) (s : σ) : run handle (op o : Prog Op Ans (Ans o)) s = handle o s := rfl

theorem run_bind (x : Prog Op Ans α) (f : α → Prog Op Ans β) (s : σ) :
    run handle (x >>= f) s = run handle (f (run handle x s).1) (run handle x s).2 := by
  induction x generalizing s with
  | ret a => rfl
  | call o next ih => exact ih _ _

theorem run_bind_of {x : Prog Op Ans α} {f : α → Prog Op Ans β} {s t : σ} {a : α} (h : run handle x s = (a, t)) :
    run handle (x >>= f) s = run handle (f a) t := by
  rw [run_bind, h]

theorem run_op_bind (o : Op) (f : Ans o → Prog Op Ans β) (s : σ) :
    run handle (op o >>= f) s = run handle (f (handle o s).1) (handle o s).2 := rfl

/-! ## Programs that can stop with an error -/

abbrev Fallible (Op : Type) (Ans : Op → Type) (ε α : Type) := ExceptT ε (Prog Op Ans) α

def exec (x : Fallible Op Ans ε α) (s : σ) : Except ε α × σ := run handle x.run s

/-- What comes after a step: nothing, when it failed. -/
def resume (f : α → σ → Except ε β × σ) : Except ε α × σ → Except ε β × σ
  | (.ok a, s) => f a s
  | (.error e, s) => (.error e, s)

@[simp] theorem resume_ok (f : α → σ → Except ε β × σ) (a : α) (s : σ) : resume f (.ok a, s) = f a s := rfl

@[simp] theorem resume_error (f : α → σ → Except ε β × σ) (e : ε) (s : σ) : resume f (.error e, s) = (.error e, s) := rfl

@[simp] theorem exec_pure (a : α) (s : σ) : exec handle (pure a : Fallible Op Ans ε α) s = (.ok a, s) := rfl

@[simp] theorem exec_throw (e : ε) (s : σ) : exec handle (throw e : Fallible Op Ans ε α) s = (.error e, s) := rfl

theorem exec_bind (x : Fallible Op Ans ε α) (f : α → Fallible Op Ans ε β) (s : σ) :
    exec handle (x >>= f) s = resume (fun a => exec handle (f a)) (exec handle x s) := by
  rw [exec, ExceptT.run_bind, run_bind, exec]
  rcases run handle x.run s with ⟨r, s'⟩
  cases r with
  | ok a => rfl
  | error e => rfl

theorem exec_map (f : α → β) (x : Fallible Op Ans ε α) (s : σ) :
    exec handle (f <$> x) s = resume (fun a s => (.ok (f a), s)) (exec handle x s) := by
  rw [map_eq_pure_bind, exec_bind]
  rfl

variable {handle}

theorem exec_bind_eq_ok {x : Fallible Op Ans ε α} {f : α → Fallible Op Ans ε β} {s t : σ} {b : β} :
    exec handle (x >>= f) s = (.ok b, t) ↔
      ∃ a s', exec handle x s = (.ok a, s') ∧ exec handle (f a) s' = (.ok b, t) := by
  rw [exec_bind]
  constructor
  · intro h
    rcases hx : exec handle x s with ⟨r, s'⟩
    rw [hx] at h
    cases r with
    | ok a => exact ⟨a, s', rfl, h⟩
    | error e => simp at h
  · rintro ⟨a, s', hx, hf⟩
    rw [hx, resume_ok, hf]

/-! ## Two runs side by side -/

/-- From states related by `R`, the two runs give equal results and end in states related by `R`. -/
def Lockstep (handle : (o : Op) → σ → Ans o × σ) (R : σ → σ → Prop) (x : Fallible Op Ans ε α) : Prop :=
  ∀ s t, R s t → (exec handle x s).1 = (exec handle x t).1 ∧ R (exec handle x s).2 (exec handle x t).2

namespace Lockstep

variable {R : σ → σ → Prop}

theorem pure (a : α) : Lockstep handle R (Pure.pure a : Fallible Op Ans ε α) := fun _ _ h => ⟨rfl, h⟩

theorem throw (e : ε) : Lockstep handle R (MonadExcept.throw e : Fallible Op Ans ε α) := fun _ _ h => ⟨rfl, h⟩

theorem bind {x : Fallible Op Ans ε α} {f : α → Fallible Op Ans ε β} (hx : Lockstep handle R x)
    (hf : ∀ a, Lockstep handle R (f a)) : Lockstep handle R (x >>= f) := by
  intro s t h
  rw [exec_bind, exec_bind]
  obtain ⟨hr, hst⟩ := hx s t h
  rcases hs : exec handle x s with ⟨r, s'⟩
  rcases ht : exec handle x t with ⟨r', t'⟩
  simp only [hs, ht] at hr hst
  subst hr
  cases r with
  | error e => exact ⟨rfl, hst⟩
  | ok a => exact hf a s' t' hst

theorem ite {c : Prop} [Decidable c] {x y : Fallible Op Ans ε α} (hx : Lockstep handle R x)
    (hy : Lockstep handle R y) : Lockstep handle R (if c then x else y) := by
  split
  · exact hx
  · exact hy

end Lockstep

/-! ## Programs over another signature -/

def translate (f : (o : Op) → Prog Op' Ans' (Ans o)) : Prog Op Ans α → Prog Op' Ans' α
  | ret a => ret a
  | call o next => f o >>= fun answer => translate f (next answer)

end Prog

import CitadelAgent.Lib.Prog

/-!
# Runs of a program whose calls may be answered in several ways

`does o s answer t` says that the call `o`, made in the state `s`, may answer `answer` and leave `t`. A run of a program
is a choice of one such answer for every call it makes.

* `Runs does x s events a t` : a run of `x` from `s`, its events in order;
* `runs_bind`, `runs_op`, `runs_op_bind` : the runs of a program in steps;
* `Ends`, `ends_bind`, `ends_bind_ok`, `ends_lift_bind` : the same for a program that an error ends;
* `Only P x` : every call `x` can make satisfies `P`; `Runs.only`;
* `trace` : the events of the run in which one handler answers every call; `runs_trace_of`, `trace_bind`.
-/

namespace Prog

variable {Op : Type} {Ans : Op → Type} {σ α β ε : Type}

structure Event (Op : Type) (Ans : Op → Type) (σ : Type) where
  op : Op
  before : σ
  answer : Ans op
  after : σ

inductive Runs (does : (o : Op) → σ → Ans o → σ → Prop) : Prog Op Ans α → σ → List (Event Op Ans σ) → α → σ → Prop
  | ret (a : α) (s : σ) : Runs does (ret a) s [] a s
  | call {o : Op} {next : Ans o → Prog Op Ans α} {s : σ} {answer : Ans o} {s' : σ} {events : List (Event Op Ans σ)}
      {a : α} {t : σ} (made : does o s answer s') (rest : Runs does (next answer) s' events a t) :
      Runs does (call o next) s (⟨o, s, answer, s'⟩ :: events) a t

variable {does : (o : Op) → σ → Ans o → σ → Prop}

/-! ## The runs of each construct -/

theorem runs_ret {a b : α} {s t : σ} {events : List (Event Op Ans σ)} :
    Runs does (ret a) s events b t ↔ events = [] ∧ b = a ∧ t = s := by
  constructor
  · rintro ⟨⟩
    exact ⟨rfl, rfl, rfl⟩
  · rintro ⟨rfl, rfl, rfl⟩
    exact .ret _ _

variable {o : Op} {P : Op → Prop}

theorem runs_call {next : Ans o → Prog Op Ans α} {s t : σ} {events : List (Event Op Ans σ)} {a : α} :
    Runs does (call o next) s events a t ↔
      ∃ answer s' rest, events = ⟨o, s, answer, s'⟩ :: rest ∧ does o s answer s' ∧ Runs does (next answer) s' rest a t := by
  constructor
  · intro run
    cases run with
    | call made rest => exact ⟨_, _, _, rfl, made, rest⟩
  · rintro ⟨answer, s', rest, rfl, made, run⟩
    exact .call made run

theorem runs_op {s t : σ} {events : List (Event Op Ans σ)} {answer : Ans o} :
    Runs does (op o) s events answer t ↔ events = [⟨o, s, answer, t⟩] ∧ does o s answer t := by
  rw [op, runs_call]
  constructor
  · rintro ⟨answer', s', rest, rfl, made, run⟩
    obtain ⟨rfl, rfl, rfl⟩ := runs_ret.mp run
    exact ⟨rfl, made⟩
  · rintro ⟨rfl, made⟩
    exact ⟨answer, t, [], rfl, made, .ret _ _⟩

theorem runs_op_bind {f : Ans o → Prog Op Ans α} {s t : σ} {events : List (Event Op Ans σ)} {a : α} :
    Runs does (op o >>= f) s events a t ↔
      ∃ answer s' rest, events = ⟨o, s, answer, s'⟩ :: rest ∧ does o s answer s' ∧ Runs does (f answer) s' rest a t :=
  runs_call

theorem runs_bind {x : Prog Op Ans α} {f : α → Prog Op Ans β} {s t : σ} {events : List (Event Op Ans σ)} {b : β} :
    Runs does (x >>= f) s events b t ↔
      ∃ first second a s', events = first ++ second ∧ Runs does x s first a s' ∧ Runs does (f a) s' second b t := by
  constructor
  · induction x generalizing s events with
    | ret a => exact fun run => ⟨[], events, a, s, rfl, .ret a s, run⟩
    | call o next ih =>
      intro run
      rw [call_bind, runs_call] at run
      obtain ⟨answer, s₁, rest, rfl, made, run⟩ := run
      obtain ⟨first, second, a, s', rfl, hx, hf⟩ := ih answer run
      exact ⟨_, second, a, s', rfl, .call made hx, hf⟩
  · rintro ⟨first, second, a, s', rfl, hx, hf⟩
    induction hx with
    | ret a s => exact hf
    | call made _ ih => exact .call made (ih hf)

/-! ## Programs that can stop with an error -/

def Ends (does : (o : Op) → σ → Ans o → σ → Prop) (x : Fallible Op Ans ε α) (s : σ) (events : List (Event Op Ans σ))
    (r : Except ε α) (t : σ) : Prop :=
  Runs does x.run s events r t

theorem ends_pure {a : α} {r : Except ε α} {s t : σ} {events : List (Event Op Ans σ)} :
    Ends does (pure a : Fallible Op Ans ε α) s events r t ↔ events = [] ∧ r = .ok a ∧ t = s := runs_ret

theorem ends_throw {e : ε} {r : Except ε α} {s t : σ} {events : List (Event Op Ans σ)} :
    Ends does (throw e : Fallible Op Ans ε α) s events r t ↔ events = [] ∧ r = .error e ∧ t = s := runs_ret

theorem ends_lift {x : Prog Op Ans α} {r : Except ε α} {s t : σ} {events : List (Event Op Ans σ)} :
    Ends does (liftM x : Fallible Op Ans ε α) s events r t ↔ ∃ a, r = .ok a ∧ Runs does x s events a t := by
  have hrun : (liftM x : Fallible Op Ans ε α).run = x >>= fun a => ret (.ok a) := rfl
  rw [Ends, hrun, runs_bind]
  constructor
  · rintro ⟨first, second, a, s', rfl, hx, hr⟩
    obtain ⟨rfl, rfl, rfl⟩ := runs_ret.mp hr
    exact ⟨a, rfl, by simpa using hx⟩
  · rintro ⟨a, rfl, hx⟩
    exact ⟨events, [], a, t, by simp, hx, .ret _ _⟩

theorem ends_bind {x : Fallible Op Ans ε α} {f : α → Fallible Op Ans ε β} {s t : σ} {events : List (Event Op Ans σ)}
    {r : Except ε β} :
    Ends does (x >>= f) s events r t ↔
      (∃ e, Ends does x s events (.error e) t ∧ r = .error e) ∨
        ∃ first second a s', events = first ++ second ∧ Ends does x s first (.ok a) s' ∧ Ends does (f a) s' second r t := by
  rw [Ends, ExceptT.run_bind, runs_bind]
  constructor
  · rintro ⟨first, second, a, s', rfl, hx, hf⟩
    cases a with
    | ok a => exact .inr ⟨first, second, a, s', rfl, hx, hf⟩
    | error e =>
      obtain ⟨rfl, rfl, rfl⟩ := runs_ret.mp hf
      exact .inl ⟨e, by simpa [Ends] using hx, rfl⟩
  · rintro (⟨e, hx, rfl⟩ | ⟨first, second, a, s', rfl, hx, hf⟩)
    · exact ⟨events, [], .error e, t, by simp, hx, .ret _ _⟩
    · exact ⟨first, second, .ok a, s', rfl, hx, hf⟩

def ofExcept (r : Except ε α) : Fallible Op Ans ε α := ExceptT.mk (ret r)

theorem ends_ofExcept {e r : Except ε α} {s t : σ} {events : List (Event Op Ans σ)} :
    Ends does (ofExcept e : Fallible Op Ans ε α) s events r t ↔ events = [] ∧ r = e ∧ t = s := runs_ret

theorem ends_bind_ok {x : Fallible Op Ans ε α} {f : α → Fallible Op Ans ε β} {s t : σ} {events : List (Event Op Ans σ)} {b : β} :
    Ends does (x >>= f) s events (.ok b) t ↔
      ∃ first second a s', events = first ++ second ∧ Ends does x s first (.ok a) s' ∧
        Ends does (f a) s' second (.ok b) t := by
  rw [ends_bind]
  constructor
  · rintro (⟨e, -, he⟩ | h)
    · simp at he
    · exact h
  · exact .inr

theorem ends_lift_bind {x : Prog Op Ans α} {f : α → Fallible Op Ans ε β} {s t : σ} {events : List (Event Op Ans σ)}
    {r : Except ε β} :
    Ends does (liftM x >>= f) s events r t ↔
      ∃ first second a s', events = first ++ second ∧ Runs does x s first a s' ∧ Ends does (f a) s' second r t := by
  rw [ends_bind]
  constructor
  · rintro (⟨e, hx, -⟩ | ⟨first, second, a, s', rfl, hx, hrest⟩)
    · obtain ⟨a, ha, -⟩ := ends_lift.mp hx
      simp at ha
    · obtain ⟨b, hb, hx⟩ := ends_lift.mp hx
      exact ⟨first, second, b, s', rfl, hx, Except.ok.inj hb ▸ hrest⟩
  · rintro ⟨first, second, a, s', rfl, hx, hrest⟩
    exact .inr ⟨first, second, a, s', rfl, ends_lift.mpr ⟨a, rfl, hx⟩, hrest⟩

theorem ends_seq {x : Fallible Op Ans ε α} {f : α → Fallible Op Ans ε β} {a : α} {r : Except ε β} {s s' t : σ}
    {first second : List (Event Op Ans σ)} (hx : Ends does x s first (.ok a) s') (hf : Ends does (f a) s' second r t) :
    Ends does (x >>= f) s (first ++ second) r t :=
  ends_bind.mpr (.inr ⟨first, second, a, s', rfl, hx, hf⟩)

/-! ## Facts about every call -/

theorem Runs.made {x : Prog Op Ans α} {s t : σ} {events : List (Event Op Ans σ)} {a : α} (run : Runs does x s events a t) :
    ∀ e ∈ events, does e.op e.before e.answer e.after := by
  induction run with
  | ret a s => exact fun e he => absurd he List.not_mem_nil
  | call made rest ih =>
    intro e he
    rcases List.mem_cons.mp he with rfl | he
    · exact made
    · exact ih e he

def Only (P : Op → Prop) : Prog Op Ans α → Prop
  | ret _ => True
  | call o next => P o ∧ ∀ answer, Only P (next answer)

theorem Only.op (h : P o) : Only P (op o : Prog Op Ans (Ans o)) := ⟨h, fun _ => trivial⟩

theorem Only.bind {x : Prog Op Ans α} {f : α → Prog Op Ans β} (hx : Only P x) (hf : ∀ a, Only P (f a)) :
    Only P (x >>= f) := by
  induction x with
  | ret a => exact hf a
  | call o next ih => exact ⟨hx.1, fun answer => ih answer (hx.2 answer)⟩

theorem Only.fallible {x : Fallible Op Ans ε α} {f : α → Fallible Op Ans ε β} (hx : Only P x.run)
    (hf : ∀ a, Only P (f a).run) : Only P (x >>= f).run := by
  rw [ExceptT.run_bind]
  refine Only.bind hx fun r => ?_
  cases r with
  | ok a => exact hf a
  | error e => trivial

theorem Runs.only {x : Prog Op Ans α} {s t : σ} {events : List (Event Op Ans σ)} {a : α} (run : Runs does x s events a t)
    (h : Only P x) : ∀ e ∈ events, P e.op := by
  induction run with
  | ret a s => exact fun e he => absurd he List.not_mem_nil
  | call made rest ih =>
    intro e he
    rcases List.mem_cons.mp he with rfl | he
    · exact h.1
    · exact ih (h.2 _) e he

def Returns (P : α → Prop) : Prog Op Ans α → Prop
  | ret a => P a
  | call _ next => ∀ answer, Returns P (next answer)

theorem Returns.trivial (x : Prog Op Ans α) : Returns (fun _ => True) x := by
  induction x with
  | ret a => exact True.intro
  | call o next ih => exact ih

theorem Returns.bind {P : α → Prop} {Q : β → Prop} {x : Prog Op Ans α} {f : α → Prog Op Ans β} (hx : Returns P x)
    (hf : ∀ a, P a → Returns Q (f a)) : Returns Q (x >>= f) := by
  induction x with
  | ret a => exact hf a hx
  | call o next ih => exact fun answer => ih answer (hx answer)

theorem Runs.returns {P : α → Prop} {x : Prog Op Ans α} {s t : σ} {events : List (Event Op Ans σ)} {a : α}
    (run : Runs does x s events a t) (h : Returns P x) : P a := by
  induction run with
  | ret a s => exact h
  | call _ _ ih => exact ih (h _)

theorem Runs.mono {does' : (o : Op) → σ → Ans o → σ → Prop} {x : Prog Op Ans α} {s t : σ} {events : List (Event Op Ans σ)}
    {a : α} (run : Runs does x s events a t) (h : ∀ o s answer t, does o s answer t → does' o s answer t) :
    Runs does' x s events a t := by
  induction run with
  | ret a s => exact .ret a s
  | call made _ ih => exact .call (h _ _ _ _ made) ih

/-! ## The run of a handler -/

def trace (handle : (o : Op) → σ → Ans o × σ) : Prog Op Ans α → σ → List (Event Op Ans σ)
  | ret _, _ => []
  | call o next, s =>
    ⟨o, s, (handle o s).1, (handle o s).2⟩ :: trace handle (next (handle o s).1) (handle o s).2

theorem runs_trace_of {handle : (o : Op) → σ → Ans o × σ} {I : σ → Prop} (hstep : ∀ o s, I s → I (handle o s).2)
    (h : ∀ o s, I s → does o s (handle o s).1 (handle o s).2) (x : Prog Op Ans α) {s : σ} (hs : I s) :
    Runs does x s (trace handle x s) (run handle x s).1 (run handle x s).2 := by
  induction x generalizing s with
  | ret a => exact .ret a s
  | call o next ih => exact .call (h o s hs) (ih _ (hstep o s hs))

theorem runs_trace {handle : (o : Op) → σ → Ans o × σ} (h : ∀ o s, does o s (handle o s).1 (handle o s).2)
    (x : Prog Op Ans α) (s : σ) : Runs does x s (trace handle x s) (run handle x s).1 (run handle x s).2 :=
  runs_trace_of (I := fun _ => True) (fun _ _ _ => True.intro) (fun o s _ => h o s) x True.intro

theorem run_keeps {handle : (o : Op) → σ → Ans o × σ} {I : σ → Prop} (hstep : ∀ o s, I s → I (handle o s).2)
    (x : Prog Op Ans α) {s : σ} (hs : I s) : I (run handle x s).2 := by
  induction x generalizing s with
  | ret a => exact hs
  | call o next ih => exact ih _ (hstep o s hs)

theorem trace_bind (handle : (o : Op) → σ → Ans o × σ) (x : Prog Op Ans α) (f : α → Prog Op Ans β) (s : σ) :
    trace handle (x >>= f) s = trace handle x s ++ trace handle (f (run handle x s).1) (run handle x s).2 := by
  induction x generalizing s with
  | ret a => rfl
  | call o next ih => exact congrArg (_ :: ·) (ih _ _)

end Prog

import Protoscript.Machine

/-! # Evaluation as a sequence of moments

A step of evaluation takes a machine and ends in a value, in a runtime error, or without fuel;
each leaves a machine behind.  Beside what comes of it, a step says through which moments it takes
the machine, one for every change.  So "in every state of a run" can be said of the very functions
that run.  The moments are propositions, and running a step computes none of them.

`trace_bind_of_ok` and `trace_bracket`: the moments of a composed step are those of its parts, in
order. -/

set_option autoImplicit false

namespace Protoscript

inductive Stop
  | error (e : RuntimeError)
  | outOfFuel

/-- What comes of a step, with the machine that it leaves. -/
inductive Outcome (α : Type)
  | ok (a : α) (after : Machine)
  | error (stop : Stop) (after : Machine)

def Outcome.machine {α : Type} : Outcome α → Machine
  | ok _ after | error _ after => after

/-- A machine in the course of a step, and what the step has put aside by then: the closures
whose calls are under way, the latest first, each with the environment of its caller. -/
structure Moment where
  machine : Machine
  aside : List (Closure × Environment)

namespace Moment

def of (m : Machine) : Moment := ⟨m, []⟩

/-- The moment of a part, as one of a step that had put something aside before. -/
def under (aside : List (Closure × Environment)) (μ : Moment) : Moment :=
  ⟨μ.machine, μ.aside ++ aside⟩

end Moment

/-- A step of evaluation.  `passes m h`: started on `m`, it goes through the moments `h`, one after
each change.  There is exactly one such list, and it ends where the step ends. -/
structure Eval (α : Type) where
  run : Machine → Outcome α
  passes : Machine → List Moment → Prop
  once : ∀ m, ∃ h, ∀ g, passes m g ↔ g = h
  arrives : ∀ m h, passes m h → h.getLastD (.of m) = .of (run m).machine

namespace Eval

variable {α β : Type}

instance : CoeFun (Eval α) fun _ => Machine → Outcome α := ⟨run⟩

/-- The moments of a step, without the one that it starts from. -/
noncomputable def trace (x : Eval α) (m : Machine) : List Moment := (x.once m).choose

theorem passes_iff (x : Eval α) (m : Machine) (h : List Moment) :
    x.passes m h ↔ h = x.trace m :=
  (x.once m).choose_spec h

theorem trace_eq {x : Eval α} {m : Machine} {h : List Moment} (passed : x.passes m h) :
    x.trace m = h :=
  ((x.passes_iff m h).mp passed).symm

/-- All moments of a step. -/
noncomputable def history (x : Eval α) (m : Machine) : List Moment := .of m :: x.trace m

/-- A list ends where its second part ends, if that has an end. -/
theorem getLastD_append (g h : List Moment) (μ : Moment) :
    (g ++ h).getLastD μ = h.getLastD (g.getLastD μ) := by
  induction g generalizing μ with
  | nil => rfl
  | cons ν g ih => rw [List.cons_append, List.getLastD_cons, ih, List.getLastD_cons]

theorem getLastD_trace (x : Eval α) (m : Machine) :
    (x.trace m).getLastD (.of m) = .of (x.run m).machine :=
  x.arrives m _ ((x.passes_iff m _).mpr rfl)

/-! ## Single steps -/

@[always_inline, inline]
protected def pure (a : α) : Eval α where
  run m := .ok a m
  passes _ h := h = []
  once _ := ⟨[], fun _ => .rfl⟩
  arrives _ _ passed := by rw [passed]; rfl

@[always_inline, inline]
def stop (s : Stop) : Eval α where
  run m := .error s m
  passes _ h := h = []
  once _ := ⟨[], fun _ => .rfl⟩
  arrives _ _ passed := by rw [passed]; rfl

/-- The machine as it is. -/
@[always_inline, inline]
def get : Eval Machine where
  run m := .ok m m
  passes _ h := h = []
  once _ := ⟨[], fun _ => .rfl⟩
  arrives _ _ passed := by rw [passed]; rfl

/-- A change of the machine that may give a result or a stop. -/
@[always_inline, inline]
def change (f : Machine → Outcome α) : Eval α where
  run := f
  passes m h := h = [.of (f m).machine]
  once m := ⟨[.of (f m).machine], fun _ => .rfl⟩
  arrives _ _ passed := by rw [passed]; rfl

@[always_inline, inline]
def modify (f : Machine → Machine) : Eval Unit := change fun m => .ok () (f m)

@[always_inline, inline]
def modifyGet (f : Machine → α × Machine) : Eval α := change fun m =>
  let (a, after) := f m
  .ok a after

/-! ## Steps one after the other -/

/-- The moments of what follows a step that ended so. -/
noncomputable def traceAfter (f : α → Eval β) : Outcome α → List Moment
  | .ok a after => (f a).trace after
  | .error _ _ => []

@[always_inline, inline]
protected def bind (x : Eval α) (f : α → Eval β) : Eval β where
  run m :=
    match x.run m with
    | .ok a after => (f a).run after
    | .error s after => .error s after
  passes m h := h = x.trace m ++ traceAfter f (x.run m)
  once m := ⟨x.trace m ++ traceAfter f (x.run m), fun _ => .rfl⟩
  arrives m h passed := by
    have first := x.getLastD_trace m
    rw [passed]
    cases ended : x.run m with
    | ok a after =>
      have second := (f a).getLastD_trace after
      rw [ended, Outcome.machine] at first
      rw [getLastD_append, first, traceAfter, second]
    | error s after =>
      rw [ended] at first
      rw [traceAfter, List.append_nil, first]
      rfl

@[always_inline]
instance : Monad Eval where
  pure := Eval.pure
  bind := Eval.bind

@[simp] theorem trace_pure (a : α) (m : Machine) : (pure a : Eval α).trace m = [] := trace_eq rfl

@[simp] theorem run_stop (s : Stop) (m : Machine) : (stop s : Eval α).run m = .error s m := rfl

@[simp] theorem trace_stop (s : Stop) (m : Machine) : (stop s : Eval α).trace m = [] := trace_eq rfl

@[simp] theorem trace_get (m : Machine) : get.trace m = [] := trace_eq rfl

@[simp] theorem trace_change (f : Machine → Outcome α) (m : Machine) :
    (change f).trace m = [.of (f m).machine] :=
  trace_eq rfl

theorem run_bind (x : Eval α) (f : α → Eval β) (m : Machine) :
    (x >>= f).run m =
      match x.run m with
      | .ok a after => (f a).run after
      | .error s after => .error s after :=
  rfl

theorem run_bind_of_ok {x : Eval α} {m after : Machine} {a : α} (ended : x.run m = .ok a after)
    (f : α → Eval β) : (x >>= f).run m = (f a).run after := by
  rw [run_bind, ended]

theorem run_bind_of_error {x : Eval α} {m after : Machine} {s : Stop}
    (ended : x.run m = .error s after) (f : α → Eval β) : (x >>= f).run m = .error s after := by
  rw [run_bind, ended]

theorem run_bind_eq_ok {x : Eval α} {f : α → Eval β} {m after : Machine} {b : β}
    (ended : (x >>= f).run m = .ok b after) :
    ∃ a between, x.run m = .ok a between ∧ (f a).run between = .ok b after := by
  rw [run_bind] at ended
  split at ended
  · next a between first => exact ⟨a, between, first, ended⟩
  · cases ended

theorem run_bind_eq_error {x : Eval α} {f : α → Eval β} {m after : Machine} {s : Stop}
    (ended : (x >>= f).run m = .error s after) :
    x.run m = .error s after ∨
      ∃ a between, x.run m = .ok a between ∧ (f a).run between = .error s after := by
  rw [run_bind] at ended
  split at ended
  · next a between first => exact .inr ⟨a, between, first, ended⟩
  · next s' after' first =>
    cases ended
    exact .inl first

theorem trace_bind_of_ok {x : Eval α} {m after : Machine} {a : α} (ended : x.run m = .ok a after)
    (f : α → Eval β) : (x >>= f).trace m = x.trace m ++ (f a).trace after := by
  have passed : (x >>= f).trace m = x.trace m ++ traceAfter f (x.run m) := trace_eq rfl
  rw [passed, ended, traceAfter]

theorem trace_bind_of_error {x : Eval α} {m after : Machine} {s : Stop}
    (ended : x.run m = .error s after) (f : α → Eval β) : (x >>= f).trace m = x.trace m := by
  have passed : (x >>= f).trace m = x.trace m ++ traceAfter f (x.run m) := trace_eq rfl
  rw [passed, ended, traceAfter, List.append_nil]

/-! ## Brackets -/

/-- Enters a part of the machine, takes a step there, and sets the machine right again however
the step ends.  What was saved on the way in is at hand on the way out; `aside` says what of it
counts as put aside. -/
@[inline]
def bracket {σ : Type} (enter : Machine → σ × Machine) (aside : σ → List (Closure × Environment))
    (leave : σ → Machine → Machine) (x : Eval α) : Eval α where
  run m :=
    let entry := enter m
    match x.run entry.2 with
    | .ok a after => .ok a (leave entry.1 after)
    | .error s after => .error s (leave entry.1 after)
  passes m h :=
    h = ⟨(enter m).2, aside (enter m).1⟩ ::
      (x.trace (enter m).2).map (Moment.under (aside (enter m).1)) ++
        [.of (leave (enter m).1 (x.run (enter m).2).machine)]
  once m := ⟨_, fun _ => .rfl⟩
  arrives m h passed := by
    rw [passed, getLastD_append]
    dsimp only
    cases x.run (enter m).2 <;> rfl

section Bracket

variable {σ : Type} (enter : Machine → σ × Machine) (aside : σ → List (Closure × Environment))
    (leave : σ → Machine → Machine) (x : Eval α) (m : Machine)

theorem trace_bracket :
    (bracket enter aside leave x).trace m =
      ⟨(enter m).2, aside (enter m).1⟩ ::
        (x.trace (enter m).2).map (Moment.under (aside (enter m).1)) ++
          [.of (leave (enter m).1 (x.run (enter m).2).machine)] :=
  trace_eq rfl

end Bracket

/-- Runs a step in a new innermost frame, which is dropped however the step ends. -/
@[inline]
def inScope (x : Eval α) : Eval α :=
  bracket (fun m => ((), m.push)) (fun _ => []) (fun _ after => after.pop) x

/-- Runs a step with the frame of a closure as the only one.  The frames of the caller are there
again however the step ends.  For a plain function the step runs on the frames of the caller. -/
@[inline]
def onCaptured (closure : Option Closure) (x : Eval α) : Eval α :=
  match closure with
  | some c =>
    bracket (fun m => (m.env, m.onFrame c.captured)) (fun caller => [(c, caller)])
      (fun caller after => after.onEnv caller) x
  | none => x

/-- Runs a step as a call that is counted in and, however the step ends, out. -/
@[inline]
def counted (d : Definition) (closure : Bool) (x : Eval α) : Eval α :=
  bracket (fun m => ((), m.enter d closure)) (fun _ => []) (fun _ after => after.leave) x

/-- Takes a step to its end, whatever it comes to.  Without fuel there is no end. -/
@[inline]
def settle (x : Eval α) : Eval Unit where
  run m :=
    match x.run m with
    | .ok _ after | .error (.error _) after => .ok () after
    | .error .outOfFuel after => .error .outOfFuel after
  passes := x.passes
  once := x.once
  arrives m h passed := by
    rw [x.arrives m h passed]
    rcases x.run m with ⟨_, _⟩ | ⟨_ | _, _⟩ <;> rfl

theorem trace_settle (x : Eval α) (m : Machine) : (settle x).trace m = x.trace m :=
  trace_eq ((x.passes_iff m _).mpr rfl)

end Eval

end Protoscript

import Mathlib.Data.List.Chain
import Protoscript.Eval

/-! # The course of a step

`Course P R m x Q`: started on `m`, the step `x` goes only through moments that satisfy `P`, each of
which comes from the one before it by `R`, and what comes of it satisfies `Q`.  There is one rule
for each way in which steps are made of others: `Course.bind`, `Course.bracket` and
`Course.settle`. -/

set_option autoImplicit false

namespace Protoscript

namespace Eval

variable {α β : Type} {P : Moment → Prop} {R : Machine → Machine → Prop} {m : Machine}

theorem exists_history_eq (x : Eval α) (m : Machine) :
    ∃ g, x.history m = g ++ [.of (x.run m).machine] := by
  have nonempty : x.history m ≠ [] := List.cons_ne_nil _ _
  have last : (x.history m).getLast nonempty = .of (x.run m).machine := by
    rw [← getLastD_trace, ← List.getLast_eq_getLastD]
    rfl
  refine ⟨(x.history m).dropLast, ?_⟩
  rw [← last, List.dropLast_append_getLast]

theorem run_mem_history (x : Eval α) (m : Machine) : .of (x.run m).machine ∈ x.history m := by
  obtain ⟨g, split⟩ := x.exists_history_eq m
  rw [split]
  exact List.mem_append_right g (List.mem_singleton_self _)

theorem mem_history_bind {x : Eval α} {f : α → Eval β} {μ : Moment} (passed : μ ∈ x.history m) :
    μ ∈ (x >>= f).history m := by
  rcases List.mem_cons.mp passed with rfl | passed
  · exact List.mem_cons_self
  · apply List.mem_cons_of_mem
    cases ended : x.run m with
    | ok a after =>
      rw [trace_bind_of_ok ended]
      exact List.mem_append_left _ passed
    | error s after =>
      rw [trace_bind_of_error ended]
      exact passed

theorem mem_history_bind_of_ok {x : Eval α} {f : α → Eval β} {a : α} {after : Machine} {μ : Moment}
    (ended : x.run m = .ok a after) (passed : μ ∈ (f a).history after) :
    μ ∈ (x >>= f).history m := by
  rcases List.mem_cons.mp passed with rfl | passed
  · obtain ⟨g, split⟩ := x.exists_history_eq m
    apply mem_history_bind
    rw [split, ended]
    exact List.mem_append_right _ (List.mem_singleton_self _)
  · apply List.mem_cons_of_mem
    rw [trace_bind_of_ok ended]
    exact List.mem_append_right _ passed

def Follows (R : Machine → Machine → Prop) (μ ν : Moment) : Prop := R μ.machine ν.machine

structure Course (P : Moment → Prop) (R : Machine → Machine → Prop) (m : Machine) (x : Eval α)
    (Q : Outcome α → Prop) : Prop where
  moments : ∀ μ ∈ x.trace m, P μ
  chain : (x.history m).IsChain (Follows R)
  ends : Q (x.run m)

namespace Course

theorem weaken {x : Eval α} {Q Q' : Outcome α → Prop} {P' : Moment → Prop}
    (course : Course P R m x Q) (moments : ∀ μ, P μ → P' μ) (ends : ∀ out, Q out → Q' out) :
    Course P' R m x Q' :=
  ⟨fun μ passed => moments μ (course.moments μ passed), course.chain, ends _ course.ends⟩

/-- A transitive relation of neighbours is one of any moment and any later one. -/
theorem pairwise {x : Eval α} {Q : Outcome α → Prop} (course : Course P R m x Q)
    (trans : ∀ {m₁ m₂ m₃}, R m₁ m₂ → R m₂ m₃ → R m₁ m₃) : (x.history m).Pairwise (Follows R) := by
  have : IsTrans Moment (Follows R) := ⟨fun _ _ _ => trans⟩
  exact course.chain.pairwise

/-- A step that changes nothing has no course. -/
theorem of_trace_eq_nil {x : Eval α} {Q : Outcome α → Prop} (still : x.trace m = [])
    (ends : Q (x.run m)) : Course P R m x Q := by
  refine ⟨?_, ?_, ends⟩
  · rw [still]
    exact fun μ passed => absurd passed List.not_mem_nil
  · rw [history, still]
    exact .singleton _

theorem pure {a : α} {Q : Outcome α → Prop} (ends : Q (.ok a m)) :
    Course P R m (Pure.pure a : Eval α) Q :=
  of_trace_eq_nil (trace_pure a m) ends

theorem stop {s : Stop} {Q : Outcome α → Prop} (ends : Q (.error s m)) :
    Course P R m (Eval.stop s : Eval α) Q :=
  of_trace_eq_nil (trace_stop s m) ends

theorem change {f : Machine → Outcome α} {Q : Outcome α → Prop} (moment : P (.of (f m).machine))
    (next : R m (f m).machine) (ends : Q (f m)) : Course P R m (Eval.change f) Q := by
  refine ⟨?_, ?_, ends⟩
  · intro μ passed
    rw [trace_change, List.mem_singleton] at passed
    rw [passed]
    exact moment
  · rw [history, trace_change]
    exact .cons_cons next (.singleton _)

theorem bind {x : Eval α} {f : α → Eval β} {Q : Outcome α → Prop} {U : Outcome β → Prop}
    (first : Course P R m x Q)
    (second : ∀ a after, Q (.ok a after) → Course P R after (f a) U)
    (stopped : ∀ s after, Q (.error s after) → U (.error s after)) :
    Course P R m (x >>= f) U := by
  have ends := first.ends
  cases ended : x.run m with
  | ok a after =>
    rw [ended] at ends
    have later := second a after ends
    refine ⟨?_, ?_, ?_⟩
    · rw [trace_bind_of_ok ended]
      intro μ passed
      rcases List.mem_append.mp passed with passed | passed
      · exact first.moments μ passed
      · exact later.moments μ passed
    · obtain ⟨g, split⟩ := x.exists_history_eq m
      have whole : (x >>= f).history m = g ++ [.of after] ++ (f a).trace after := by
        rw [history, trace_bind_of_ok ended, ← List.cons_append, ← history, split, ended]
        rfl
      have left : (g ++ [Moment.of after]).IsChain (Follows R) := by
        have chain := first.chain
        rw [split, ended] at chain
        exact chain
      rw [whole]
      exact left.append_overlap later.chain (List.cons_ne_nil _ _)
    · rw [run_bind_of_ok ended]
      exact later.ends
  | error s after =>
    rw [ended] at ends
    refine ⟨?_, ?_, ?_⟩
    · rw [trace_bind_of_error ended]
      exact first.moments
    · rw [history, trace_bind_of_error ended]
      exact first.chain
    · rw [run_bind_of_error ended]
      exact stopped s after ends

theorem map {x : Eval α} {f : α → β} {Q : Outcome α → Prop} {U : Outcome β → Prop}
    (course : Course P R m x Q) (ok : ∀ a after, Q (.ok a after) → U (.ok (f a) after))
    (stopped : ∀ s after, Q (.error s after) → U (.error s after)) :
    Course P R m (f <$> x) U :=
  bind course (fun a after ended => pure (ok a after ended)) stopped

/-- The rule of brackets.  Inside, every moment is one of the inner step under what was put
aside. -/
theorem bracket {σ : Type} {enter : Machine → σ × Machine}
    {aside : σ → List (Closure × Environment)} {leave : σ → Machine → Machine} {x : Eval α}
    {P' : Moment → Prop} {Q : Outcome α → Prop} {U : Outcome α → Prop}
    (inner : Course P' R (enter m).2 x Q)
    (into : R m (enter m).2)
    (entry : P ⟨(enter m).2, aside (enter m).1⟩)
    (moments : ∀ μ, P' μ → P (μ.under (aside (enter m).1)))
    (ok : ∀ a after, Q (.ok a after) → R after (leave (enter m).1 after) ∧
      P (.of (leave (enter m).1 after)) ∧ U (.ok a (leave (enter m).1 after)))
    (stopped : ∀ s after, Q (.error s after) → R after (leave (enter m).1 after) ∧
      P (.of (leave (enter m).1 after)) ∧ U (.error s (leave (enter m).1 after))) :
    Course P R m (Eval.bracket enter aside leave x) U := by
  have ends := inner.ends
  have left : R (x.run (enter m).2).machine (leave (enter m).1 (x.run (enter m).2).machine) ∧
      P (.of (leave (enter m).1 (x.run (enter m).2).machine)) ∧
      U ((Eval.bracket enter aside leave x).run m) := by
    dsimp only [Eval.bracket]
    cases ended : x.run (enter m).2 with
    | ok a after => exact ok a after (ended ▸ ends)
    | error s after => exact stopped s after (ended ▸ ends)
  refine ⟨?_, ?_, left.2.2⟩
  · rw [trace_bracket]
    intro μ passed
    rw [List.cons_append, List.mem_cons, List.mem_append, List.mem_map,
      List.mem_singleton] at passed
    rcases passed with rfl | ⟨ν, passed, rfl⟩ | rfl
    · exact entry
    · exact moments ν (inner.moments ν passed)
    · exact left.2.1
  · have under :
        ((x.history (enter m).2).map (Moment.under (aside (enter m).1))).IsChain (Follows R) :=
      (List.isChain_map _).mpr inner.chain
    obtain ⟨g, split⟩ := x.exists_history_eq (enter m).2
    have whole : (Eval.bracket enter aside leave x).history m =
        .of m :: ((x.history (enter m).2).map (Moment.under (aside (enter m).1)) ++
          [.of (leave (enter m).1 (x.run (enter m).2).machine)]) := by
      rw [history, trace_bracket, history, List.map_cons]
      rfl
    rw [whole, List.isChain_cons]
    refine ⟨?_, ?_⟩
    · rw [history, List.map_cons, List.cons_append, List.head?_cons]
      intro μ first
      cases first
      exact into
    · rw [split, List.map_append] at under ⊢
      refine under.append (.singleton _) ?_
      intro μ last ν first
      cases first
      rw [List.map_cons, List.map_nil, List.getLast?_concat] at last
      cases last
      exact left.1

theorem settle {x : Eval α} {Q : Outcome α → Prop} {U : Outcome Unit → Prop}
    (course : Course P R m x Q) (ends : ∀ out, Q out → U (.ok () out.machine))
    (starved : ∀ after, Q (.error .outOfFuel after) → U (.error .outOfFuel after)) :
    Course P R m (Eval.settle x) U := by
  refine ⟨?_, ?_, ?_⟩
  · rw [trace_settle]
    exact course.moments
  · rw [history, trace_settle]
    exact course.chain
  · have last := course.ends
    dsimp only [Eval.settle]
    cases ended : x.run m with
    | ok a after => exact ends _ (ended ▸ last)
    | error s after =>
      cases s with
      | error e => exact ends (.error (.error e) after) (ended ▸ last)
      | outOfFuel => exact starved after (ended ▸ last)

end Course

end Eval

end Protoscript

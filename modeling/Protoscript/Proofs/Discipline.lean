import Protoscript.Eval.Steps
import Protoscript.Proofs.Course
import Protoscript.Proofs.Likeness.Consoles

/-! # Disciplines

A discipline is what evaluation keeps: what is known of the code that runs; an invariant of
machines, which may ask more of one that a statement starts on; what is known of the values at hand
and of the names of variables given as arguments; how a machine may change from the start of an
expression or statement to its end; what every moment in between satisfies; and how moments follow
each other.  `Lawful` lists what has to be shown of a discipline, of each single change and of each
bracket; no law is about evaluation.
`Keeps` is then closed under the ways in which steps are composed, and all steps that evaluate no
expression have it. -/

set_option autoImplicit false

namespace Protoscript

open Eval (Course)

/-- What a statement assigns may stay behind in its frame; an expression, a call and a block leave
no name behind. -/
inductive Extent
  | expression
  | statement

structure Discipline where
  /-- All code, unless the discipline is about some of it. -/
  code : Tree → Prop := fun _ => True
  holds : Extent → Machine → Prop
  value : Store → Value → Prop
  named : Machine → String → Prop
  rel : Extent → Machine → Machine → Prop
  moment : Machine → Moment → Prop
  next : Machine → Machine → Prop

namespace Discipline

variable (D : Discipline)

/-- A single change that the discipline allows. -/
structure Stays (e : Extent) (m after : Machine) : Prop where
  holds : D.holds e after
  rel : D.rel e m after
  next : D.next m after

/-- A bracket that the discipline allows: it leads from `m` to `inside` and back by `leave`, which
leaves the store alone. -/
structure Bracketed (e : Extent) (m inside : Machine) (aside : List (Closure × Environment))
    (leave : Machine → Machine) : Prop where
  holds : D.holds e inside
  value : ∀ v, D.value m.store v → D.value inside.store v
  next : D.next m inside
  moment : ∀ μ, D.moment inside μ → D.moment m (μ.under aside)
  leaves : ∀ after, D.holds e after → D.rel e inside after →
    D.holds .expression (leave after) ∧ D.rel .expression m (leave after) ∧
      D.next after (leave after)
  store : ∀ after, (leave after).store = after.store

/-- Some of the code may write the variable. -/
def Writes (x : String) : Prop := ∃ t : Tree, D.code t ∧ t.Writes x

structure Lawful (setting : Setting) : Prop where
  part : ∀ {t u}, t.PartOf u → D.code u → D.code t
  called : ∀ {s v d closure}, D.value s v → v.code? = some (d, closure) →
    D.code (.definition d)
  refl : ∀ e m, D.rel e m m
  trans : ∀ {e m m' m''}, D.rel e m m' → D.rel e m' m'' → D.rel e m m''
  widen : ∀ {m m'}, D.rel .expression m m' → D.rel .statement m m'
  narrow : ∀ {m}, D.holds .statement m → D.holds .expression m
  reopen : ∀ {m m'}, D.holds .statement m → D.rel .expression m m' → D.holds .expression m' →
    D.holds .statement m'
  value_mono : ∀ {m m' v}, D.rel .statement m m' → D.value m.store v → D.value m'.store v
  named_mono : ∀ {m m' x}, D.rel .expression m m' → D.named m x → D.named m' x
  moment_of : ∀ {m m'}, D.holds .expression m' → D.rel .statement m m' → D.moment m (.of m')
  moment_mono : ∀ {m m' μ}, D.rel .statement m m' → D.moment m' μ → D.moment m μ
  plain : ∀ s v, v.IsPlain → D.value s v
  function : ∀ s name f, f ∈ setting.functions.overloads name → D.value s (.function f)
  binding : ∀ {m x v}, D.holds .expression m → m.get? x = some v → D.value m.store v
  member : ∀ {m o x v}, D.holds .expression m → D.value m.store (.object o) →
    m.store.getMember o x = some v → D.value m.store v
  named_of_binding : ∀ {m x}, D.holds .expression m → D.Writes x → (m.get? x).isSome →
    D.named m x
  console : ∀ {m}, D.holds .expression m → ∀ c, m.console.Uses c →
    D.Stays .expression m { m with console := c }
  newObject : ∀ {m}, D.holds .expression m →
    D.Stays .expression m m.newObject.2 ∧ D.value m.newObject.2.store m.newObject.1
  newClosure : ∀ {m}, D.holds .expression m → ∀ d, D.code (.expr (.lambda d)) →
    D.Stays .expression m (m.newClosure d).2 ∧ D.value (m.newClosure d).2.store (m.newClosure d).1
  setMember : ∀ {m o x v s}, D.holds .expression m → D.value m.store (.object o) →
    D.value m.store v → m.store.setMember o x v = .ok s →
      D.Stays .expression m { m with store := s }
  set : ∀ {m v}, D.holds .statement m → D.value m.store v → ∀ x, D.Writes x →
    D.Stays .statement m (m.set x v)
  set_named : ∀ {m x v}, D.holds .expression m → D.value m.store v → D.named m x →
    D.Stays .expression m (m.set x v)
  create : ∀ {m v}, D.holds .statement m → D.value m.store v →
    ∀ x, D.Stays .statement m (m.create x v)
  scope : ∀ {m}, D.holds .expression m → D.Bracketed .statement m m.push [] Machine.pop
  captured : ∀ {m c}, D.holds .expression m → D.value m.store (.closure c) →
    D.Bracketed .expression m (m.onFrame c.captured) [(c, m.env)] (·.onEnv m.env)
  counted : ∀ {m}, D.holds .expression m → setting.reached? m.depth = none → ∀ d closure,
    D.Bracketed .expression m (m.enter d closure) [] Machine.leave

/-- What a discipline says of the end of a step. -/
structure Ended {α : Type} (e : Extent) (m : Machine) (V : Machine → α → Prop)
    (out : Outcome α) : Prop where
  holds : D.holds e out.machine
  rel : D.rel e m out.machine
  result : ∀ a after, out = .ok a after → V after a

/-- Started on `m`, the step keeps to the discipline, and its result satisfies `V`. -/
def Keeps {α : Type} (e : Extent) (m : Machine) (x : Eval α) (V : Machine → α → Prop) : Prop :=
  D.holds e m → Course (D.moment m) D.next m x (D.Ended e m V)

/-- The result is a value that the discipline allows. -/
def Valued (m : Machine) (v : Value) : Prop := D.value m.store v

variable {D} {setting : Setting} {α β : Type} {e : Extent} {m : Machine}

theorem Ended.of_ok {V : Machine → α → Prop} {a : α} {after : Machine} (holds : D.holds e after)
    (rel : D.rel e m after) (result : V after a) : D.Ended e m V (.ok a after) :=
  ⟨holds, rel, by rintro _ _ ⟨⟩; exact result⟩

theorem Ended.of_error {V : Machine → α → Prop} {s : Stop} {after : Machine}
    (holds : D.holds e after) (rel : D.rel e m after) : D.Ended e m V (.error s after) :=
  ⟨holds, rel, nofun⟩

theorem Keeps.imp {x : Eval α} {V U : Machine → α → Prop} (keeps : D.Keeps e m x V)
    (result : ∀ a after, D.rel e m after → V after a → U after a) : D.Keeps e m x U := by
  intro holds
  refine (keeps holds).weaken (fun _ moment => moment) ?_
  intro out ended
  refine ⟨ended.holds, ended.rel, ?_⟩
  intro a after same
  subst same
  exact result a after ended.rel (ended.result a after rfl)

namespace Lawful

variable (L : D.Lawful setting)

include L

/-! ## Composed steps -/

theorem narrowed (holds : D.holds e m) : D.holds .expression m := by
  cases e with
  | expression => exact holds
  | statement => exact L.narrow holds

theorem keeps_of_still {x : Eval α} {V : Machine → α → Prop} (still : x.trace m = [])
    (same : (x.run m).machine = m)
    (result : D.holds e m → ∀ a after, x.run m = .ok a after → V after a) :
    D.Keeps e m x V := by
  intro holds
  refine .of_trace_eq_nil still ⟨?_, ?_, result holds⟩
  · rw [same]
    exact holds
  · rw [same]
    exact L.refl e m

theorem keeps_pure {a : α} {V : Machine → α → Prop} (result : D.holds e m → V m a) :
    D.Keeps e m (pure a : Eval α) V :=
  fun holds => .pure (.of_ok holds (L.refl e m) (result holds))

theorem keeps_stop {s : Stop} {V : Machine → α → Prop} : D.Keeps e m (Eval.stop s : Eval α) V :=
  fun holds => .stop (.of_error holds (L.refl e m))

theorem keeps_fail {cause : RuntimeError.Cause} {line : Nat} {V : Machine → α → Prop} :
    D.Keeps e m (Eval.fail cause line : Eval α) V :=
  L.keeps_stop

theorem moment_rel {m' : Machine} {μ : Moment} (rel : D.rel e m m') (moment : D.moment m' μ) :
    D.moment m μ := by
  cases e with
  | expression => exact L.moment_mono (L.widen rel) moment
  | statement => exact L.moment_mono rel moment

theorem moment_after {m' : Machine} (holds : D.holds e m') (rel : D.rel e m m') :
    D.moment m (.of m') := by
  cases e with
  | expression => exact L.moment_of holds (L.widen rel)
  | statement => exact L.moment_of (L.narrow holds) rel

theorem value_rel {m' : Machine} {v : Value} (rel : D.rel e m m') (value : D.value m.store v) :
    D.value m'.store v := by
  cases e with
  | expression => exact L.value_mono (L.widen rel) value
  | statement => exact L.value_mono rel value

theorem keeps_bind {x : Eval α} {f : α → Eval β} {V : Machine → α → Prop}
    {U : Machine → β → Prop} (first : D.Keeps e m x V)
    (second : ∀ a after, D.holds e after → D.rel e m after → V after a → D.Keeps e after (f a) U) :
    D.Keeps e m (x >>= f) U := by
  intro holds
  refine (first holds).bind ?_ ?_
  · intro a after ended
    have later := second a after ended.holds ended.rel (ended.result a after rfl) ended.holds
    refine later.weaken (fun μ => L.moment_rel ended.rel) ?_
    intro out last
    exact ⟨last.holds, L.trans ended.rel last.rel, last.result⟩
  · intro s after ended
    exact .of_error ended.holds ended.rel

theorem keeps_widen {x : Eval α} {V : Machine → α → Prop} (keeps : D.Keeps .expression m x V) :
    D.Keeps .statement m x V := by
  intro holds
  refine (keeps (L.narrow holds)).weaken (fun _ moment => moment) ?_
  intro out ended
  exact ⟨L.reopen holds ended.rel ended.holds, L.widen ended.rel, ended.result⟩

theorem keeps_get {f : Machine → Eval α} {V : Machine → α → Prop} (keeps : D.Keeps e m (f m) V) :
    D.Keeps e m (Eval.get >>= f) V := by
  have start : D.Keeps e m Eval.get fun after a => a = m ∧ after = m := by
    refine L.keeps_of_still (Eval.trace_get m) rfl ?_
    intro _ a after same
    cases same
    exact ⟨rfl, rfl⟩
  refine L.keeps_bind start ?_
  intro a after _ _ same
  obtain ⟨rfl, rfl⟩ := same
  exact keeps

theorem keeps_change {f : Machine → Outcome α} {V : Machine → α → Prop}
    (stays : D.holds e m → D.Stays e m (f m).machine)
    (result : D.holds e m → ∀ a after, f m = .ok a after → V after a) :
    D.Keeps e m (Eval.change f) V := by
  intro holds
  have stays := stays holds
  exact .change (L.moment_after stays.holds stays.rel) stays.next
    ⟨stays.holds, stays.rel, result holds⟩

theorem keeps_modify {f : Machine → Machine} (stays : D.holds e m → D.Stays e m (f m)) :
    D.Keeps e m (Eval.modify f) fun _ _ => True :=
  L.keeps_change stays fun _ _ _ _ => trivial

/-- A step in a bracket.  What is said of the result may only look at the store. -/
theorem keeps_bracket {σ : Type} {enter : Machine → σ × Machine}
    {aside : σ → List (Closure × Environment)} {leave : σ → Machine → Machine} {x : Eval α}
    (V : Store → α → Prop)
    (bracketed : D.holds .expression m →
      D.Bracketed e m (enter m).2 (aside (enter m).1) (leave (enter m).1))
    (keeps : (∀ v, D.value m.store v → D.value (enter m).2.store v) →
      D.Keeps e (enter m).2 x fun after a => V after.store a) :
    D.Keeps .expression m (Eval.bracket enter aside leave x) fun after a => V after.store a := by
  intro holds
  have b := bracketed holds
  have entry : D.moment m ⟨(enter m).2, aside (enter m).1⟩ := by
    have inside := L.moment_of (L.narrowed b.holds) (L.refl .statement _)
    exact b.moment _ inside
  have left : ∀ {out : Outcome α}, D.Ended e (enter m).2 (fun after a => V after.store a) out →
      D.holds .expression (leave (enter m).1 out.machine) ∧
        D.rel .expression m (leave (enter m).1 out.machine) ∧
          D.next out.machine (leave (enter m).1 out.machine) :=
    fun ended => b.leaves _ ended.holds ended.rel
  refine (keeps b.value b.holds).bracket b.next entry b.moment ?_ ?_
  · intro a after ended
    obtain ⟨holds, rel, next⟩ := left ended
    refine ⟨next, L.moment_after holds rel, .of_ok holds rel ?_⟩
    rw [b.store]
    exact ended.result a after rfl
  · intro s after ended
    obtain ⟨holds, rel, next⟩ := left ended
    exact ⟨next, L.moment_after holds rel, .of_error holds rel⟩

theorem keeps_inScope {x : Eval α} (V : Store → α → Prop)
    (keeps : (∀ v, D.value m.store v → D.value m.push.store v) →
      D.Keeps .statement m.push x fun after a => V after.store a) :
    D.Keeps .expression m (Eval.inScope x) fun after a => V after.store a := by
  unfold Eval.inScope
  apply L.keeps_bracket V
  · exact fun holds => L.scope holds
  · exact keeps

theorem keeps_onCaptured {c : Closure} {x : Eval α} (V : Store → α → Prop)
    (closure : D.value m.store (.closure c))
    (keeps : D.Keeps .expression (m.onFrame c.captured) x fun after a => V after.store a) :
    D.Keeps .expression m (Eval.onCaptured (some c) x) fun after a => V after.store a := by
  unfold Eval.onCaptured
  apply L.keeps_bracket V
  · exact fun holds => L.captured holds closure
  · exact fun _ => keeps

theorem keeps_counted {d : Definition} {closure : Bool} {x : Eval α} (V : Store → α → Prop)
    (allowed : setting.reached? m.depth = none)
    (keeps : D.Keeps .expression (m.enter d closure) x fun after a => V after.store a) :
    D.Keeps .expression m (Eval.counted d closure x) fun after a => V after.store a := by
  unfold Eval.counted
  apply L.keeps_bracket V
  · exact fun holds => L.counted holds allowed d closure
  · exact fun _ => keeps

end Lawful

end Discipline

end Protoscript

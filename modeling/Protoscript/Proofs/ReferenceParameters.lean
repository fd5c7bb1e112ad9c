import Protoscript.Proofs.Scoping

/-! # Parameters passed by reference

A call copies its arguments in and, when its body has ended well, copies what the parameters passed
by reference then hold out again: in the order of the parameters, each to the variable that was
given for it, in the very frame where that variable was found when the argument was evaluated.  A
call that ends in an error copies nothing out. -/

set_option autoImplicit false

namespace Protoscript

open Eval (Passed)

/-! ## Which calls there are -/

/-- A call of a function or a closure: what it runs, and what it is given. -/
structure Call where
  definition : Definition
  closure : Option Closure
  args : List Expr
  this : Option ObjectId
  line : Nat

/-- The expression, evaluated on `m`, comes to a call on `n`: a variable is called, or a function of
the program, or a method of an object. -/
inductive Machine.Calls (setting : Setting) (fuel : Nat) (m : Machine) :
    Expr → Machine → Call → Prop
  | ofVariable {name : String} {args : List Expr} {place : Position} {callee : Value}
    {d : Definition} {closure : Option Closure}
    (own : Builtin.isNamed Builtin.all name = false) (bound : m.get? name = some callee)
    (code : callee.code? = some (d, closure)) :
    Calls setting fuel m (.call name args place) m ⟨d, closure, args, none, place.line⟩
  | ofFunction {name : String} {args : List Expr} {place : Position} {f : Function}
    (own : Builtin.isNamed Builtin.all name = false) (unbound : m.get? name = none)
    (found : setting.functions.get? name args.length = some f) :
    Calls setting fuel m (.call name args place) m
      ⟨f.toDefinition, none, args, none, place.line⟩
  | ofMethod {object : Expr} {name : String} {args : List Expr} {place : Position} {o : ObjectId}
    {n : Machine} {callee : Value} {d : Definition} {closure : Option Closure}
    (receiver : (Eval.expr setting fuel object).run m = .ok (.object o) n)
    (found : n.store.getMember o name = some callee) (code : callee.code? = some (d, closure)) :
    Calls setting fuel m (.method object name args place) n ⟨d, closure, args, some o, place.line⟩

/-- The call is one that the machine can make: it has the callee and the receiver. -/
structure Machine.CanMake (n : Machine) (c : Call) (callee : Value) : Prop where
  wf : n.WellFormed
  code : callee.code? = some (c.definition, c.closure)
  callee : n.store.Has callee
  receiver : ∀ o, c.this = some o → n.store.Has (.object o)

namespace Machine.Calls

variable {setting : Setting} {fuel : Nat} {m n : Machine} {e : Expr} {c : Call}

/-- The expression comes to what the call comes to. -/
theorem exists_callee (calls : m.Calls setting fuel e n c) (wf : m.WellFormed) :
    ∃ callee, n.CanMake c callee ∧ (Eval.expr setting (fuel + 2) e).run m =
      (Eval.callValue setting fuel callee c.args c.this c.line).run n := by
  cases calls with
  | @ofVariable name args place callee d closure own bound code =>
    refine ⟨callee, ⟨wf, code, wf.has_of_get? bound, by rintro _ ⟨⟩⟩, ?_⟩
    have found : (Eval.binding? name).run m = .ok (some callee) m := by
      rw [← bound]
      rfl
    rw [Eval.expr, Eval.callNamed, own, if_neg Bool.false_ne_true, Eval.run_bind_of_ok found]
    dsimp only
    rw [if_pos (by rw [Value.isCallable_eq, code]; rfl)]
  | @ofFunction name args place f own unbound found =>
    refine ⟨.function f, ⟨wf, rfl, trivial, by rintro _ ⟨⟩⟩, ?_⟩
    have missing : (Eval.binding? name).run m = .ok none m := by
      rw [← unbound]
      rfl
    rw [Eval.expr, Eval.callNamed, own, if_neg Bool.false_ne_true, Eval.run_bind_of_ok missing]
    dsimp only
    rw [found]
  | @ofMethod object name args place o n callee d closure receiver found code =>
    have ended := (((scopeDiscipline.lawful setting).kept fuel).expr m object trivial wf).ends
    rw [receiver] at ended
    have wf : n.WellFormed := ended.holds
    have has : n.store.Has (.object o) := ended.result _ _ rfl
    refine ⟨callee, ⟨wf, code, wf.store.has_of_getMember found, ?_⟩, ?_⟩
    · rintro _ ⟨⟩
      exact has
    have isObject : (Eval.objectOf (.object o) name place.line).run n = .ok o n := rfl
    have here : Eval.get.run n = .ok n n := rfl
    rw [Eval.expr, Eval.callMethod, Eval.run_bind_of_ok receiver, Eval.run_bind_of_ok isObject,
      Eval.run_bind_of_ok here, found]
    dsimp only
    rw [if_pos (by rw [Value.isCallable_eq, code]; rfl)]

end Machine.Calls

namespace Eval

variable {setting : Setting} {fuel line : Nat} {m n m₁ m₂ : Machine} {d : Definition}
  {closure : Option Closure} {args : List Expr} {passed : List Passed} {this : Option ObjectId}
  {ps : List Param} {as : List Expr} {function : String}

/-! ## Arguments -/

/-- The arguments were evaluated for the parameters, and each parameter passed by reference has a
variable as its argument. -/
inductive Handed : List Param → List Expr → List Passed → Prop
  | nil : Handed [] [] []
  | byValue {p : Param} {ps : List Param} {a : Expr} {as : List Expr} {w : Passed}
    {passed : List Passed} (byValue : p.byRef = false) (later : Handed ps as passed) :
    Handed (p :: ps) (a :: as) (w :: passed)
  | byRef {p : Param} {ps : List Param} {x : String} {place : Position} {as : List Expr} {v : Value}
    {passed : List Passed} (byRef : p.byRef = true) (later : Handed ps as passed) :
    Handed (p :: ps) (.var x place :: as) (⟨v, some x⟩ :: passed)

theorem Handed.length_eq (handed : Handed ps as passed) : ps.length = passed.length := by
  induction handed with
  | nil => rfl
  | byValue _ _ ih | byRef _ _ ih => exact congrArg (· + 1) ih

theorem run_sourceOf {p : Param} {a : Expr} {source : Option String}
    (ended : (sourceOf function p a).run m = .ok source n) :
    n = m ∧ (p.byRef = true →
      ∃ x place, a = .var x place ∧ source = some x ∧ (m.get? x).isSome = true) := by
  have refused : ∀ {source : Option String} {n : Machine} {line : Nat},
      (if p.byRef then fail (.refNeedsVariable p.name function) line else pure none :
        Eval (Option String)).run m = .ok source n → n = m ∧ p.byRef = false := by
    intro source n line ended
    by_cases byRef : p.byRef = true
    · rw [if_pos byRef] at ended
      cases ended
    · rw [if_neg byRef] at ended
      cases ended
      exact ⟨rfl, Bool.eq_false_iff.mpr byRef⟩
  unfold sourceOf at ended
  dsimp only at ended
  split at ended
  · next x place =>
    have here : (binding? x).run m = .ok (m.get? x) m := rfl
    rw [run_bind_of_ok here] at ended
    split at ended
    · next bound =>
      cases ended
      exact ⟨rfl, fun _ => ⟨x, place, rfl, rfl, bound⟩⟩
    · obtain ⟨same, byValue⟩ := refused ended
      exact ⟨same, fun byRef => absurd byRef (by rw [byValue]; exact Bool.false_ne_true)⟩
  · obtain ⟨same, byValue⟩ := refused ended
    exact ⟨same, fun byRef => absurd byRef (by rw [byValue]; exact Bool.false_ne_true)⟩

/-- The value of a variable that is bound is the one that it is bound to. -/
theorem run_var {x : String} {place : Position} {v : Value}
    (ended : (expr setting fuel (.var x place)).run m = .ok v n) :
    n = m ∧ ∀ w, m.get? x = some w → v = w := by
  cases fuel with
  | zero =>
    rw [expr] at ended
    cases ended
  | succ fuel =>
    rw [expr, lookup] at ended
    have here : (binding? x).run m = .ok (m.get? x) m := rfl
    rw [run_bind_of_ok here] at ended
    cases bound : m.get? x with
    | some w =>
      rw [bound] at ended
      cases ended
      refine ⟨rfl, ?_⟩
      rintro _ ⟨⟩
      rfl
    | none =>
      rw [bound] at ended
      dsimp only at ended
      split at ended <;> cases ended
      exact ⟨rfl, by rintro _ ⟨⟩⟩

theorem pass_nil (setting : Setting) (fuel : Nat) (function : String) :
    pass setting (fuel + 1) function [] [] = pure [] := by
  rw [pass]
  intro _ _ _ _ none
  cases none

theorem run_pass_zero_ne : (pass setting 0 function ps as).run m ≠ .ok passed n := by
  rw [pass]
  intro ended
  cases ended

/-- One argument after the other. -/
theorem pass_cons {p : Param} {a : Expr}
    (ended : (pass setting (fuel + 1) function (p :: ps) (a :: as)).run m = .ok passed n) :
    ∃ v source rest m₁, passed = ⟨v, source⟩ :: rest ∧
      (expr setting fuel a).run m = .ok v m₁ ∧ (sourceOf function p a).run m₁ = .ok source m₁ ∧
      (pass setting fuel function ps as).run m₁ = .ok rest n := by
  rw [pass] at ended
  obtain ⟨v, m₁, value, ended⟩ := run_bind_eq_ok ended
  obtain ⟨source, m₂, named, ended⟩ := run_bind_eq_ok ended
  obtain ⟨rest, m₃, later, listed⟩ := run_bind_eq_ok ended
  obtain ⟨same, -⟩ := run_sourceOf named
  cases listed
  rw [same] at named later
  exact ⟨v, source, rest, m₁, rfl, value, named, later⟩

theorem handed_of_pass (arity : ps.length = as.length)
    (ended : (pass setting fuel function ps as).run m = .ok passed n) : Handed ps as passed := by
  induction ps generalizing fuel as m passed with
  | nil =>
    obtain rfl := List.length_eq_zero_iff.mp arity.symm
    cases fuel with
    | zero => exact absurd ended run_pass_zero_ne
    | succ fuel =>
      rw [pass_nil] at ended
      cases ended
      exact .nil
  | cons p ps ih =>
    obtain ⟨a, as, rfl⟩ := List.exists_cons_of_length_eq_add_one arity.symm
    cases fuel with
    | zero => exact absurd ended run_pass_zero_ne
    | succ fuel =>
      obtain ⟨v, source, rest, m₁, rfl, -, named, later⟩ := pass_cons ended
      have later := ih (Nat.succ.inj arity) later
      cases byRef : p.byRef with
      | false => exact .byValue byRef later
      | true =>
        obtain ⟨x, place, rfl, rfl, -⟩ := (run_sourceOf named).2 byRef
        exact .byRef byRef later

/-- The variable that is given for a parameter is bound when the arguments before it have been
evaluated, and what is passed is its value then. -/
theorem found_of_pass (wf : m.WellFormed)
    (ended : (pass setting fuel function ps as).run m = .ok passed n) {i : Nat} {p : Param}
    {x : String} {place : Position} (param : ps[i]? = some p) (byRef : p.byRef = true)
    (arg : as[i]? = some (.var x place)) :
    ∃ before between v, (pass setting fuel function (ps.take i) (as.take i)).run m =
        .ok before between ∧
      m.Scoped .expression between ∧ between.get? x = some v ∧ passed[i]? = some ⟨v, some x⟩ := by
  induction i generalizing ps as fuel m passed with
  | zero =>
    obtain ⟨p', ps, rfl⟩ : ∃ q qs, ps = q :: qs := by cases ps; cases param; exact ⟨_, _, rfl⟩
    obtain ⟨a, as, rfl⟩ : ∃ b bs, as = b :: bs := by cases as; cases arg; exact ⟨_, _, rfl⟩
    cases param
    cases arg
    cases fuel with
    | zero => exact absurd ended run_pass_zero_ne
    | succ fuel =>
      obtain ⟨v, source, rest, m₁, rfl, value, named, -⟩ := pass_cons ended
      obtain ⟨rfl, isValue⟩ := run_var value
      obtain ⟨y, place', same, rfl, bound⟩ := (run_sourceOf named).2 byRef
      cases same
      obtain ⟨w, bound⟩ := Option.isSome_iff_exists.mp bound
      obtain rfl := isValue w bound
      refine ⟨[], m₁, v, ?_, .refl _ _, bound, rfl⟩
      rw [List.take_zero, List.take_zero, pass_nil]
      rfl
  | succ i ih =>
    obtain ⟨q, ps, rfl⟩ : ∃ q qs, ps = q :: qs := by cases ps; cases param; exact ⟨_, _, rfl⟩
    obtain ⟨a, as, rfl⟩ : ∃ b bs, as = b :: bs := by cases as; cases arg; exact ⟨_, _, rfl⟩
    cases fuel with
    | zero => exact absurd ended run_pass_zero_ne
    | succ fuel =>
      obtain ⟨w, source, rest, m₁, rfl, value, named, later⟩ := pass_cons ended
      have first := (((scopeDiscipline.lawful setting).kept fuel).expr m a trivial wf).ends
      rw [value] at first
      have wf₁ : m₁.WellFormed := first.holds
      have kept : m.Scoped .expression m₁ := first.rel
      obtain ⟨before, between, v, ran, later, bound, here⟩ := ih wf₁ later param arg
      refine ⟨⟨w, source⟩ :: before, between, v, ?_, kept.trans later, bound, here⟩
      rw [List.take_succ_cons, List.take_succ_cons, pass, run_bind_of_ok value,
        run_bind_of_ok named, run_bind_of_ok ran]
      rfl

/-! ## The end of a body -/

/-- What the parameters passed by reference hold in the frame `own`, none of them missing, with the
variables that were given for them. -/
inductive Returned (own : Bindings) : List Param → List Expr → List (String × Value) → Prop
  | nil : Returned own [] [] []
  | byValue {p : Param} {ps : List Param} {a : Expr} {as : List Expr} {back : List (String × Value)}
    (byValue : p.byRef = false) (later : Returned own ps as back) :
    Returned own (p :: ps) (a :: as) back
  | byRef {p : Param} {ps : List Param} {x : String} {place : Position} {as : List Expr} {v : Value}
    {back : List (String × Value)} (byRef : p.byRef = true) (held : own.get? p.name = some v)
    (later : Returned own ps as back) : Returned own (p :: ps) (.var x place :: as) ((x, v) :: back)

theorem get?_of_contains_inner {name : String}
    (bound : (m.store.frame m.env.inner).contains name = true) :
    m.get? name = (m.store.frame m.env.inner).get? name := by
  obtain ⟨v, held⟩ := Option.isSome_iff_exists.mp bound
  rw [Machine.get?, Environment.get?, Environment.frames, List.findSome?_cons, held]

theorem returned_finalValues (handed : Handed ps as passed)
    (bound : ∀ p ∈ ps, (m.store.frame m.env.inner).contains p.name = true) :
    Returned (m.store.frame m.env.inner) ps as (finalValues m ps passed) := by
  induction handed with
  | nil => exact .nil
  | byValue byValue _ ih =>
    rw [finalValues, byValue]
    exact .byValue byValue (ih fun p later => bound p (List.mem_cons_of_mem _ later))
  | @byRef p ps x place as v passed byRef _ ih =>
    obtain ⟨w, held⟩ := Option.isSome_iff_exists.mp (bound p List.mem_cons_self)
    rw [finalValues, byRef]
    dsimp only
    rw [get?_of_contains_inner (bound p List.mem_cons_self), held, Option.getD_some]
    exact .byRef byRef held (ih fun p later => bound p (List.mem_cons_of_mem _ later))

/-- The parameters are bound in the innermost frame. -/
theorem contains_of_bindParams (setting : Setting) (wf : m.WellFormed)
    (known : ∀ a ∈ passed, m.store.Has a.value) (arity : ps.length = passed.length)
    (ended : (bindParams ps passed).run m = .ok () n) :
    ∀ p ∈ ps, (n.store.frame m.env.inner).contains p.name = true := by
  induction ps generalizing passed m with
  | nil =>
    intro p among
    cases among
  | cons p ps ih =>
    obtain ⟨a, passed, rfl⟩ := List.exists_cons_of_length_eq_add_one arity.symm
    have lawful := scopeDiscipline.lawful setting
    have first : (create p.name a.value).run m = .ok () (m.create p.name a.value) := rfl
    rw [bindParams, run_bind_of_ok first] at ended
    have keeps := lawful.keeps_create (x := p.name) (known a List.mem_cons_self)
    have created := (keeps wf).ends
    rw [first] at created
    have wf₁ : (m.create p.name a.value).WellFormed := created.holds
    have known₁ : ∀ b ∈ passed, (m.create p.name a.value).store.Has b.value := fun b later =>
      created.rel.store.has (known b (List.mem_cons_of_mem a later))
    rintro q (_ | ⟨_, among⟩)
    · have later : scopeDiscipline.Ended .statement (m.create p.name a.value) (fun _ _ => True)
          ((bindParams ps passed).run (m.create p.name a.value)) :=
        (lawful.keeps_bindParams known₁ wf₁).ends
      rw [ended] at later
      refine later.rel.store.names _ _ ?_
      have inner := wf.env _ m.env.inner_mem_frames
      exact (Store.contains_frame_bind inner _ _ _ _).mpr (.inr ⟨rfl, rfl⟩)
    · exact ih wf₁ known₁ (Nat.succ.inj arity) ended q among

/-- A body runs in a frame of its own, the first that is allocated.  At its end, when the final
values are read, its parameters are all bound there. -/
theorem finalValues_of_body (wf : m.WellFormed) (known : ∀ a ∈ passed, m.store.Has a.value)
    (received : ∀ o, this = some o → m.store.Has (.object o))
    (arity : d.params.length = passed.length) {r : Value × List (String × Value)}
    (ended : (body setting (fuel + 1) d passed this).run m = .ok r n) :
    ∃ bound flow last, (stmts setting fuel d.body).run bound = .ok flow last ∧
      last.env.inner = ⟨m.store.frames.size⟩ ∧
      r = (flow.value, finalValues last d.params passed) ∧
      (∀ p ∈ d.params, (last.store.frame last.env.inner).contains p.name = true) ∧
      n.store = last.store := by
  have lawful := scopeDiscipline.lawful setting
  -- The frame is dropped behind the body; the store stays.
  have inside : ∃ last, (do
      bindParams d.params passed
      bindThis this
      let flow ← stmts setting fuel d.body
      return (flow.value, finalValues (← get) d.params passed) :
        Eval (Value × List (String × Value))).run m.push = .ok r last ∧ n = last.pop := by
    rw [body] at ended
    dsimp only [inScope, bracket] at ended
    split at ended
    · next r' last ran =>
      cases ended
      exact ⟨last, ran, rfl⟩
    · cases ended
  obtain ⟨last, ran, rfl⟩ := inside
  obtain ⟨_, m₁, given, ran⟩ := run_bind_eq_ok ran
  obtain ⟨_, m₂, method, ran⟩ := run_bind_eq_ok ran
  obtain ⟨flow, m₃, done, ran⟩ := run_bind_eq_ok ran
  cases ran
  have pushed := Store.Extends.newFrame m.store .empty
  have known : ∀ a ∈ passed, m.push.store.Has a.value := fun a among => pushed.has (known a among)
  have params := contains_of_bindParams setting wf.push known arity given
  have first : scopeDiscipline.Ended .statement m.push (fun _ _ => True)
      ((bindParams d.params passed).run m.push) := (lawful.keeps_bindParams known wf.push).ends
  rw [given] at first
  have wf₁ : m₁.WellFormed := first.holds
  have kept₁ : m.push.Scoped .statement m₁ := first.rel
  have receiver : ∀ o, this = some o → m₁.store.Has (.object o) := fun o is =>
    kept₁.store.has (pushed.has (received o is))
  have second := (lawful.keeps_bindThis receiver wf₁).ends
  rw [method] at second
  have wf₂ : m₂.WellFormed := second.holds
  have kept₂ : m₁.Scoped .statement m₂ := second.rel
  have third := ((lawful.kept fuel).stmts m₂ d.body (fun _ _ => trivial) wf₂).ends
  rw [done] at third
  have kept₃ : m₂.Scoped .statement last := third.rel
  have inner : last.env.inner = m.push.env.inner :=
    congrArg Environment.inner (kept₁.trans (kept₂.trans kept₃)).stack.env
  refine ⟨m₂, flow, last, done, inner, rfl, fun p among => ?_, rfl⟩
  rw [inner]
  exact (kept₂.trans kept₃).store.names _ _ (params p among)

/-- A body gives what the parameters passed by reference hold in its frame at its end. -/
theorem returned_of_body (wf : m.WellFormed) (known : ∀ a ∈ passed, m.store.Has a.value)
    (received : ∀ o, this = some o → m.store.Has (.object o)) (handed : Handed d.params as passed)
    {r : Value × List (String × Value)}
    (ended : (body setting (fuel + 1) d passed this).run m = .ok r n) :
    ∃ bound flow last, (stmts setting fuel d.body).run bound = .ok flow last ∧
      last.env.inner = ⟨m.store.frames.size⟩ ∧ r.1 = flow.value ∧
      Returned (last.store.frame last.env.inner) d.params as r.2 ∧ n.store = last.store := by
  obtain ⟨bound, flow, last, done, inner, rfl, params, store⟩ :=
    finalValues_of_body wf known received handed.length_eq ended
  exact ⟨bound, flow, last, done, inner, rfl, returned_finalValues handed params, store⟩

/-- A call runs its body on the store as it finds it, and leaves the store as its body does. -/
theorem body_of_invocation (wf : m.WellFormed) (has : ∀ c, closure = some c → c ∈ m.store.closures)
    {r : Value × List (String × Value)}
    (ended : (invocation setting (fuel + 1) d closure passed this line).run m = .ok r n) :
    ∃ inside after, inside.WellFormed ∧ inside.store = m.store ∧
      (body setting fuel d passed this).run inside = .ok r after ∧ n.store = after.store := by
  rw [invocation, run_entered] at ended
  split at ended
  · cases ended
  · cases closure with
    | none =>
      refine ⟨m.enter d false, ?_⟩
      dsimp only [counted, onCaptured, bracket] at ended
      rw [Option.isSome_none] at ended
      cases ran : (body setting fuel d passed this).run (m.enter d false) with
      | ok r after =>
        rw [ran] at ended
        cases ended
        exact ⟨after, ⟨wf.store, wf.env⟩, rfl, rfl, rfl⟩
      | error s after =>
        rw [ran] at ended
        cases ended
    | some c =>
      refine ⟨(m.enter d true).onFrame c.captured, ?_⟩
      dsimp only [counted, onCaptured, bracket] at ended
      rw [Option.isSome_some] at ended
      have here : ((m.enter d true).onFrame c.captured).WellFormed := by
        refine ⟨wf.store, fun f used => ?_⟩
        rw [List.mem_singleton.mp used]
        exact wf.store.captured c (has c rfl)
      cases ran : (body setting fuel d passed this).run ((m.enter d true).onFrame c.captured) with
      | ok r after =>
        rw [ran] at ended
        cases ended
        exact ⟨after, here, rfl, rfl, rfl⟩
      | error s after =>
        rw [ran] at ended
        cases ended

/-! ## Write-backs -/

theorem run_writeBack (back : List (String × Value)) (m : Machine) :
    (writeBack back).run m = .ok () (back.foldl (fun n w => n.set w.1 w.2) m) := by
  induction back generalizing m with
  | nil => rfl
  | cons w back ih =>
    have first : (set w.1 w.2).run m = .ok () (m.set w.1 w.2) := rfl
    rw [writeBack, run_bind_of_ok first]
    exact ih (m.set w.1 w.2)

end Eval

/-- The same but for what the frames hold. -/
structure Machine.SameBesidesFrames (m after : Machine) : Prop where
  env : after.env = m.env
  depth : after.depth = m.depth
  console : after.console = m.console
  objects : after.store.objects = m.store.objects
  closures : after.store.closures = m.store.closures

theorem Machine.sameBesidesFrames_writes (m : Machine) (back : List (String × Value)) :
    m.SameBesidesFrames (back.foldl (fun n w => n.set w.1 w.2) m) := by
  induction back generalizing m with
  | nil => exact ⟨rfl, rfl, rfl, rfl, rfl⟩
  | cons w back ih =>
    obtain ⟨env, depth, console, objects, closures⟩ := ih (m.set w.1 w.2)
    exact ⟨env, depth, console, objects, closures⟩

theorem Machine.get?_frame_set {m : Machine} (wf : m.WellFormed) {x : String} {v : Value}
    {owner : FrameId} (owned : m.env.owner? m.store x = some owner) (f : FrameId) (y : String) :
    ((m.set x v).store.frame f).get? y =
      if f = owner ∧ y = x then some v else (m.store.frame f).get? y := by
  have written : (m.set x v).store = m.store.bind owner x v := by
    rw [Machine.set, Environment.set, owned]
    rfl
  have allocated := wf.env owner (Environment.mem_of_owner? owned).1
  rw [written]
  by_cases here : f = owner
  · subst here
    rw [Store.frame_bind_self allocated, Bindings.get?_insert]
    simp only [true_and]
  · rw [Store.frame_bind_of_ne m.store here, if_neg fun both => here both.1]

/-- Written to bound variables, each value goes to the frame that owns its variable; the last value
for a variable stays, and all else is as it was. -/
theorem Machine.get?_frame_writes {m : Machine} (wf : m.WellFormed)
    {back : List (String × Value)} (returns : scopeDiscipline.Returns m back) (f : FrameId)
    (y : String) :
    ((back.foldl (fun n w => n.set w.1 w.2) m).store.frame f).get? y =
      if m.env.owner? m.store y = some f then (back.reverse.lookup y).or ((m.store.frame f).get? y)
      else (m.store.frame f).get? y := by
  induction back generalizing m with
  | nil => simp
  | cons w back ih =>
    obtain ⟨has, bound⟩ := returns w List.mem_cons_self
    have stays := scopeDiscipline.stays_set (e := .expression) wf has (.inl bound)
    have names := stays.rel.sameNames wf
    obtain ⟨owner, owned⟩ := Option.isSome_iff_exists.mp
      ((Environment.isSome_owner? m.store m.env w.1).trans bound)
    have later : scopeDiscipline.Returns (m.set w.1 w.2) back := by
      intro u mem
      obtain ⟨has, bound⟩ := returns u (List.mem_cons_of_mem w mem)
      exact ⟨stays.rel.store.has has, stays.rel.isSome_get? bound⟩
    rw [List.foldl_cons, ih stays.holds later, names.owner, Machine.get?_frame_set wf owned,
      List.reverse_cons, List.lookup_append]
    obtain ⟨x, v⟩ := w
    by_cases named : y = x
    · subst named
      rw [owned]
      by_cases here : f = owner
      · subst here
        simp
      · have other : some owner ≠ some f := fun same => here (Option.some.inj same).symm
        simp only [if_neg other, here, false_and, if_false]
    · have single : [(x, v)].lookup y = none := by
        rw [List.lookup_cons, beq_eq_false_iff_ne.mpr named]
        rfl
      have other : ¬ (f = owner ∧ y = x) := fun both => named both.2
      simp only [single, Option.or_none, if_neg other]

/-- The value of a name is the one in the frame of its owner. -/
theorem Environment.get?_of_owner? {s : Store} {e : Environment} {name : String} {f : FrameId}
    (owner : e.owner? s name = some f) : e.get? s name = (s.frame f).get? name := by
  obtain ⟨bound, before, later, split, first⟩ := List.find?_eq_some_iff_append.mp owner
  have unbound : before.findSome? (fun g => (s.frame g).get? name) = none := by
    rw [List.findSome?_eq_none_iff]
    intro g among
    have free := first g among
    simpa [Bindings.contains] using free
  obtain ⟨v, held⟩ := Option.isSome_iff_exists.mp bound
  rw [Environment.get?, split, List.findSome?_append, unbound, List.findSome?_cons, held]
  rfl

theorem Machine.get?_writes {m : Machine} (wf : m.WellFormed) {back : List (String × Value)}
    (returns : scopeDiscipline.Returns m back) {y : String} {v : Value}
    (last : back.reverse.lookup y = some v) :
    (back.foldl (fun n w => n.set w.1 w.2) m).get? y = some v := by
  have names := sameNames_of_keeps wf
    ((scopeDiscipline.lawful ⟨.empty, none⟩).keeps_writeBack returns)
  rw [Eval.run_writeBack, Outcome.machine] at names
  have bound : (m.get? y).isSome = true := by
    obtain ⟨before, later, split, -⟩ := List.lookup_eq_some_iff.mp last
    have among : (y, v) ∈ back.reverse := by
      rw [split]
      exact List.mem_append_right _ List.mem_cons_self
    exact (returns _ (List.mem_reverse.mp among)).2
  obtain ⟨owner, owned⟩ := Option.isSome_iff_exists.mp
    ((Environment.isSome_owner? m.store m.env y).trans bound)
  have after := (names.owner y).trans owned
  rw [Machine.get?, Environment.get?_of_owner? after]
  have frames := Machine.get?_frame_writes wf returns owner y
  rwa [if_pos owned, last] at frames

/-! ## Calls -/

namespace Eval

variable {setting : Setting} {fuel : Nat} {m m₁ m₂ after : Machine} {c : Call} {callee v : Value}
  {back : List (String × Value)}

/-- The call on `m`, made with `fuel`, has come to the value `v` on the machine `after`: its
arguments were evaluated up to `m₁`, its body ended well on `m₂`, and the values `back` were then
written. -/
structure CopiedOut (setting : Setting) (fuel : Nat) (c : Call) (m m₁ m₂ : Machine) (v : Value)
    (back : List (String × Value)) (after : Machine) : Prop where
  steps : ∃ passed,
    (pass setting (fuel - 1) c.definition.name c.definition.params c.args).run m = .ok passed m₁ ∧
    (invocation setting (fuel - 2) c.definition c.closure passed c.this c.line).run m₁ =
      .ok (v, back) m₂
  /-- The values are what the parameters passed by reference held in the frame of the call when the
  statements of its body had been run. -/
  returned : ∃ bound flow last,
    (stmts setting (fuel - 4) c.definition.body).run bound = .ok flow last ∧
    last.env.inner = ⟨m₁.store.frames.size⟩ ∧ v = flow.value ∧ m₂.store = last.store ∧
    Returned (last.store.frame last.env.inner) c.definition.params c.args back
  /-- They were written in the order of the parameters. -/
  written : after = back.foldl (fun n w => n.set w.1 w.2) m₂
  /-- A variable that was given for one of these parameters has the owner that it had when it was
  evaluated, behind the arguments before it. -/
  found : ∀ i p x place, c.definition.params[i]? = some p → p.byRef = true →
    c.args[i]? = some (.var x place) → ∃ before between owner,
      (pass setting (fuel - 1) c.definition.name (c.definition.params.take i)
        (c.args.take i)).run m = .ok before between ∧
      between.env = m₂.env ∧ between.env.owner? between.store x = some owner ∧
      m₂.env.owner? m₂.store x = some owner
  /-- In the frame of its owner a variable has the last value written to it, and nothing else has
  changed in a frame. -/
  frames : ∀ f y, (after.store.frame f).get? y =
    if m₂.env.owner? m₂.store y = some f then (back.reverse.lookup y).or ((m₂.store.frame f).get? y)
    else (m₂.store.frame f).get? y
  /-- So a variable ends with the last value written to it. -/
  last : ∀ y w, back.reverse.lookup y = some w → after.get? y = some w
  rest : m₂.SameBesidesFrames after

/-- The call on `m`, made with `fuel`, was stopped by an error, and the machine is as what raised it
has left it: nothing was written back. -/
inductive Unreturned (setting : Setting) (fuel : Nat) (c : Call) (m : Machine) (e : RuntimeError) :
    Machine → Prop
  | count (other : c.definition.arity ≠ c.args.length) : Unreturned setting fuel c m e m
  | argument {after : Machine}
    (stopped : (pass setting (fuel - 1) c.definition.name c.definition.params c.args).run m =
      .error (.error e) after) : Unreturned setting fuel c m e after
  | limit {passed : List Passed} {after : Machine} {limit : Nat}
    (handed : (pass setting (fuel - 1) c.definition.name c.definition.params c.args).run m =
      .ok passed after)
    (reached : setting.reached? after.depth = some limit)
    (raised : e = ⟨.tooDeep limit c.definition.name, c.line⟩) : Unreturned setting fuel c m e after
  | body {passed : List Passed} {m₁ after : Machine}
    (handed : (pass setting (fuel - 1) c.definition.name c.definition.params c.args).run m =
      .ok passed m₁)
    (allowed : setting.reached? m₁.depth = none)
    (stopped : (invocation setting (fuel - 2) c.definition c.closure passed c.this c.line).run m₁ =
      .error (.error e) after) : Unreturned setting fuel c m e after

theorem callValue_eq_ok {d : Definition} {closure : Option Closure} {args : List Expr}
    {this : Option ObjectId} {line : Nat} (code : callee.code? = some (d, closure))
    (ended : (callValue setting fuel callee args this line).run m = .ok v after) :
    ∃ less passed m₁ back m₂, fuel = less + 2 ∧ d.params.length = args.length ∧
      (pass setting (less + 1) d.name d.params args).run m = .ok passed m₁ ∧
      (invocation setting less d closure passed this line).run m₁ = .ok (v, back) m₂ ∧
      after = back.foldl (fun n w => n.set w.1 w.2) m₂ := by
  cases fuel with
  | zero =>
    rw [callValue] at ended
    cases ended
  | succ fuel =>
    rw [callValue, code] at ended
    dsimp only at ended
    split at ended
    · next arity =>
      obtain ⟨passed, m₁, handed, ended⟩ := run_bind_eq_ok ended
      cases fuel with
      | zero => exact absurd handed run_pass_zero_ne
      | succ less =>
        rw [invoke] at ended
        obtain ⟨⟨v', back⟩, m₂, called, ended⟩ := run_bind_eq_ok ended
        rw [run_bind_of_ok (run_writeBack back m₂)] at ended
        cases ended
        exact ⟨less, passed, m₁, back, m₂, rfl, arity, handed, called, rfl⟩
    · cases ended

theorem copiedOut_of_callValue (has : m.CanMake c callee)
    (ended : (callValue setting fuel callee c.args c.this c.line).run m = .ok v after) :
    ∃ m₁ m₂ back, CopiedOut setting fuel c m m₁ m₂ v back after := by
  obtain ⟨wf, code, isCallee, isReceiver⟩ := has
  obtain ⟨less, passed, m₁, back, m₂, rfl, arity, handed, called, rfl⟩ := callValue_eq_ok code ended
  obtain ⟨wf₁, kept₁, closed, given, received⟩ := scoped_pass wf code isCallee isReceiver handed
  obtain ⟨wf₂, kept₂, returns⟩ := scoped_invocation wf₁ closed given received called
  have reads : ∃ bound flow last,
      (stmts setting (less - 2) c.definition.body).run bound = .ok flow last ∧
      last.env.inner = ⟨m₁.store.frames.size⟩ ∧ v = flow.value ∧ m₂.store = last.store ∧
      Returned (last.store.frame last.env.inner) c.definition.params c.args back := by
    cases less with
    | zero =>
      rw [invocation] at called
      cases called
    | succ less =>
      obtain ⟨inside, left, wfInside, sameStore, ran, leftStore⟩ :=
        body_of_invocation wf₁ closed called
      cases less with
      | zero =>
        rw [body] at ran
        cases ran
      | succ fuel =>
        have known : ∀ a ∈ passed, inside.store.Has a.value := fun a among =>
          sameStore ▸ (given a among).value
        obtain ⟨bound, flow, last, done, inner, value, returned, lastStore⟩ := returned_of_body
          wfInside known (fun o is => sameStore ▸ received o is) (handed_of_pass arity handed) ran
        exact ⟨bound, flow, last, done, by rw [inner, sameStore], value,
          leftStore.trans lastStore, returned⟩
  have frames := Machine.get?_frame_writes wf₂ returns
  have rest := m₂.sameBesidesFrames_writes back
  have last := fun y w => Machine.get?_writes (y := y) (v := w) wf₂ returns
  refine ⟨m₁, m₂, back, ⟨passed, handed, called⟩, reads, rfl, ?_, frames, last, rest⟩
  intro i p x place param byRef arg
  obtain ⟨before, between, w, ran, kept, bound, -⟩ := found_of_pass wf handed param byRef arg
  have same₂ := (kept₁.trans kept₂).sameNames wf
  have same := kept.sameNames wf
  obtain ⟨owner, owned⟩ := Option.isSome_iff_exists.mp
    ((Environment.isSome_owner? between.store between.env x).trans
      (Option.isSome_iff_exists.mpr ⟨w, bound⟩))
  refine ⟨before, between, owner, ran, ?_, owned, ?_⟩
  · rw [kept.stack.env, (kept₁.trans kept₂).stack.env]
  · rw [same₂.owner, ← same.owner, owned]

theorem unreturned_of_callValue {e : RuntimeError} (has : m.CanMake c callee)
    (ended : (callValue setting fuel callee c.args c.this c.line).run m =
      .error (.error e) after) :
    Unreturned setting fuel c m e after := by
  cases fuel with
  | zero =>
    rw [callValue] at ended
    cases ended
  | succ fuel =>
    rw [callValue, has.code] at ended
    dsimp only at ended
    split at ended
    · cases fuel with
      | zero =>
        rw [pass] at ended
        cases ended
      | succ less =>
        rcases run_bind_eq_error ended with stopped | ⟨passed, m₁, handed, stopped⟩
        · exact .argument stopped
        · rw [invoke] at stopped
          rcases run_bind_eq_error stopped with stopped | ⟨⟨v, back⟩, m₂, -, stopped⟩
          · cases reached : setting.reached? m₁.depth with
            | none => exact .body handed reached stopped
            | some limit =>
              cases less with
              | zero =>
                rw [invocation] at stopped
                cases stopped
              | succ less =>
                rw [invocation, run_entered, reached] at stopped
                cases stopped
                exact .limit handed reached rfl
          · rw [run_bind_of_ok (run_writeBack back m₂)] at stopped
            cases stopped
    · next other =>
      cases ended
      exact .count other

/-- What comes of a call of a function or a closure, from any machine that a session comes through.
If its body ends well, the parameters passed by reference are copied out to the variables that were
given for them; if its arguments, the limit on calls or its body raise an error, nothing is. -/
theorem references_copied_out {n : Machine} {e : Expr} (reached : m.Reachable setting)
    (calls : m.Calls setting fuel e n c) :
    (∀ v after, (expr setting (fuel + 2) e).run m = .ok v after →
      ∃ m₁ m₂ back, CopiedOut setting fuel c n m₁ m₂ v back after) ∧
    ∀ error after, (expr setting (fuel + 2) e).run m = .error (.error error) after →
      Unreturned setting fuel c n error after := by
  obtain ⟨callee, has, same⟩ := calls.exists_callee reached.wellFormed
  rw [same]
  exact ⟨fun v after ended => copiedOut_of_callValue has ended,
    fun error after ended => unreturned_of_callValue has ended⟩

/-- A function that writes to two parameters passed by reference. -/
def assigning : Definition :=
  ⟨"f", [⟨"a", true, .start⟩, ⟨"b", true, .start⟩],
    [.assign ["a"] (.int 1 .start) .start, .assign ["b"] (.int 2 .start) .start], .start⟩

/-- The function is called with one variable for both parameters. -/
theorem references_copied_out_of_twice_passed :
    let x : Expr := .var "x" .start
    let setting : Setting := ⟨(FunctionTable.collected [assigning]).1, none⟩
    let m := ((session setting [(9, .exec [.assign ["x"] (.int 0 .start) .start])]).run
      (.start [])).machine
    ∃ after, (expr setting 22 (.call "f" [x, x] .start)).run m = .ok .nil after ∧
      ∃ m₁ m₂ back,
        CopiedOut setting 20 ⟨assigning, none, [x, x], none, 1⟩ m m₁ m₂ .nil back after := by
  intro x setting m
  have reached : m.Reachable setting := ⟨[], _, _, run_mem_history _ _, rfl⟩
  have own : Builtin.isNamed Builtin.all "f" = false := by decide
  have unbound : m.get? "f" = none := by with_unfolding_all rfl
  have found : setting.functions.get? "f" [x, x].length = some ⟨assigning, ⟨0⟩⟩ := by
    with_unfolding_all rfl
  have ended : ∃ after, (expr setting 22 (.call "f" [x, x] .start)).run m = .ok .nil after := by
    apply Exists.intro
    with_unfolding_all rfl
  obtain ⟨after, ended⟩ := ended
  exact ⟨after, ended, (references_copied_out reached (.ofFunction own unbound found)).1 _ _ ended⟩

end Eval

end Protoscript

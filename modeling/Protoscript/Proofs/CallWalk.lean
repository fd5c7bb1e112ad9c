import Protoscript.Evaluation
import Protoscript.Proofs.Likeness.Consoles

/-! # The walk through the calls

A call is entered when it is logged and left when its body has ended, so the moments of a run stand
in a tree: below each call are the moments of its body, with the calls that the body makes.  `Walk`
is the walk through that tree, with the number of calls under way at each moment.  It speaks of
bodies and of the log alone, not of what the machine counts.

Evaluation goes on such walks, and on them the machine counts the calls under way:
`Eval.walks_main`, by induction on the fuel.  There is one lemma for each evaluating function, which
assumes of less fuel that all of them walk. -/

set_option autoImplicit false

namespace Protoscript

/-- A call that is let in: what its body is run with. -/
structure Invocation where
  definition : Definition
  closure : Option Closure
  passed : List Eval.Passed
  this : Option ObjectId

namespace Invocation

/-- What is logged of a call with so many calls under way, itself among them. -/
def event (call : Invocation) (depth : Nat) : Event :=
  .called call.definition.name call.definition.arity depth call.closure.isSome

/-- The body, on the frames that the call runs on. -/
def act (call : Invocation) (setting : Setting) (fuel : Nat) :
    Eval (Value × List (String × Value)) :=
  Eval.onCaptured call.closure
    (Eval.body setting fuel call.definition call.passed call.this)

end Invocation

/-- With `n` calls under way, the machine goes on through the moments of the list to the last of
them, each given with the number of calls under way there.  If a call made on the way has halted,
its stop is given at the end. -/
inductive Walk (setting : Setting) :
    Nat → Machine → List (Machine × Nat) → Machine → Option Stop → Prop
  | done (n : Nat) (m : Machine) : Walk setting n m [] m none
  /-- No call is entered or left. -/
  | within {n : Nat} {m next last : Machine} {later : List (Machine × Nat)} {halted : Option Stop}
    (uses : m.console.Uses next.console) (rest : Walk setting n next later last halted) :
    Walk setting n m ((next, n) :: later) last halted
  /-- A call is entered at `inside`, and under way through all moments of its body.  These end on
  `back`, and at `next` the call is left. -/
  | returned {n : Nat} {m inside back next last : Machine} {during later : List (Machine × Nat)}
    {halted : Option Stop} (call : Invocation) (fuel : Nat) {result : Value × List (String × Value)}
    (entered : inside.console = m.console.record (call.event (n + 1)))
    (body : Walk setting (n + 1) inside during back none)
    (moments : during.map Prod.fst =
      ((call.act setting fuel).trace inside).map Moment.machine)
    (ended : (call.act setting fuel).run inside = .ok result back)
    (left : next.console = back.console) (rest : Walk setting n next later last halted) :
    Walk setting n m ((inside, n + 1) :: (during ++ (next, n) :: later)) last halted
  /-- The body halts instead, of itself or by a call that it makes, and after it nothing is done on
  the console any more. -/
  | halted {n : Nat} {m inside back next last : Machine} {during later : List (Machine × Nat)}
    {deep : Option Stop} (call : Invocation) (fuel : Nat) {s : Stop}
    (entered : inside.console = m.console.record (call.event (n + 1)))
    (body : Walk setting (n + 1) inside during back deep) (stop : ∀ s' ∈ deep, s' = s)
    (moments : during.map Prod.fst =
      ((call.act setting fuel).trace inside).map Moment.machine)
    (ended : (call.act setting fuel).run inside = .error s back)
    (left : next.console = back.console) (rest : Walk setting n next later last none)
    (silent : ∀ entry ∈ later, entry.1.console = next.console) :
    Walk setting n m ((inside, n + 1) :: (during ++ (next, n) :: later)) last (some s)

namespace Walk

variable {setting : Setting} {n : Nat} {m next last : Machine} {later more : List (Machine × Nat)}
  {halted : Option Stop}

/-- At the end as many calls are under way as at the start. -/
theorem last_mem (walk : Walk setting n m later last halted) : (last, n) ∈ (m, n) :: later := by
  induction walk with
  | done n m => exact List.mem_cons_self
  | within _ _ ih => exact List.mem_cons_of_mem _ ih
  | returned _ _ _ _ _ _ _ _ _ ih | halted _ _ _ _ _ _ _ _ _ _ _ ih =>
    exact List.mem_cons_of_mem _ (List.mem_cons_of_mem _ (List.mem_append_right _ ih))

theorem append (first : Walk setting n m later next none)
    (second : Walk setting n next more last halted) :
    Walk setting n m (later ++ more) last halted := by
  generalize unbroken : none = broken at first
  induction first with
  | done n m => exact second
  | within uses _ ih => exact .within uses (ih second unbroken)
  | returned call fuel entered body moments ended left _ _ ih =>
    rw [List.cons_append, List.append_assoc, List.cons_append]
    exact .returned call fuel entered body moments ended left (ih second unbroken)
  | halted => cases unbroken

/-- A last moment at which nothing is done on the console. -/
theorem concat (walk : Walk setting n m later last halted) (console : next.console = last.console) :
    Walk setting n m (later ++ [(next, n)]) next halted := by
  induction walk with
  | done n m => exact .within (console ▸ .refl) (.done n next)
  | within uses _ ih => exact .within uses (ih console)
  | returned call fuel entered body moments ended left _ _ ih =>
    rw [List.cons_append, List.append_assoc, List.cons_append]
    exact .returned call fuel entered body moments ended left (ih console)
  | halted call fuel entered body stop moments ended left rest silent _ ih =>
    rw [List.cons_append, List.append_assoc, List.cons_append]
    refine .halted call fuel entered body stop moments ended left (ih console) ?_
    intro entry among
    rcases List.mem_append.mp among with among | among
    · exact silent entry among
    · rw [List.mem_singleton.mp among, console]
      rcases List.mem_cons.mp rest.last_mem with same | among
      · rw [(Prod.mk.inj same).1]
      · exact silent _ among

end Walk

/-- The machine with what it counts as the number of calls under way. -/
def Moment.counted (μ : Moment) : Machine × Nat := (μ.machine, μ.machine.depth)

namespace Eval

variable {setting : Setting} {α β : Type} {m : Machine}

/-- Started on `m`, the step goes on a walk on which the machine counts the calls under way, and
stops as a call has that it makes, if one has halted. -/
def Walks (setting : Setting) (m : Machine) (x : Eval α) : Prop :=
  ∃ halted,
    Walk setting m.depth m ((x.trace m).map Moment.counted) (x.run m).machine halted ∧
      ∀ s ∈ halted, ∃ after, x.run m = .error s after

namespace Walks

theorem depth_eq {x : Eval α} (walks : x.Walks setting m) :
    (x.run m).machine.depth = m.depth := by
  obtain ⟨halted, walk, -⟩ := walks
  rcases List.mem_cons.mp walk.last_mem with same | among
  · rw [(Prod.mk.inj same).1]
  · obtain ⟨μ, -, same⟩ := List.mem_map.mp among
    obtain ⟨machine, depth⟩ := Prod.mk.inj same
    rw [← machine, depth]

/-! ## Single steps -/

/-- A step that ends well has made no call that halted. -/
theorem exists_walk {x : Eval α} {a : α} {after : Machine} (walks : x.Walks setting m)
    (ended : x.run m = .ok a after) :
    Walk setting m.depth m ((x.trace m).map Moment.counted) after none := by
  obtain ⟨halted, walk, stopped⟩ := walks
  rw [ended] at walk stopped
  cases halted with
  | none => exact walk
  | some s =>
    obtain ⟨_, stops⟩ := stopped s rfl
    cases stops

theorem of_still {x : Eval α} (still : x.trace m = []) (same : (x.run m).machine = m) :
    x.Walks setting m := by
  refine ⟨none, ?_, nofun⟩
  rw [still, same]
  exact .done _ m

theorem pure (a : α) : (Pure.pure a : Eval α).Walks setting m := of_still (trace_pure a m) rfl

theorem stop (s : Stop) : (Eval.stop s : Eval α).Walks setting m := of_still (trace_stop s m) rfl

theorem fail (cause : RuntimeError.Cause) (line : Nat) :
    (Eval.fail cause line : Eval α).Walks setting m :=
  stop _

theorem get : Eval.get.Walks setting m := of_still (trace_get m) rfl

theorem change {f : Machine → Outcome α} (depth : (f m).machine.depth = m.depth)
    (uses : m.console.Uses (f m).machine.console) : (Eval.change f).Walks setting m := by
  refine ⟨none, ?_, nofun⟩
  rw [trace_change, List.map_singleton, Moment.counted]
  dsimp only [Moment.of]
  rw [depth]
  exact .within uses (.done _ _)

/-! ## Composed steps -/

theorem bind {x : Eval α} {f : α → Eval β} (first : x.Walks setting m)
    (second : ∀ a after, x.run m = .ok a after → (f a).Walks setting after) :
    (x >>= f).Walks setting m := by
  have depth := first.depth_eq
  cases ended : x.run m with
  | ok a after =>
    have walk := first.exists_walk ended
    obtain ⟨halted, walk', stopped⟩ := second a after ended
    rw [ended, Outcome.machine] at depth
    rw [depth] at walk'
    refine ⟨halted, ?_, ?_⟩
    · rw [trace_bind_of_ok ended, run_bind_of_ok ended, List.map_append]
      exact walk.append walk'
    · rw [run_bind_of_ok ended]
      exact stopped
  | error s after =>
    obtain ⟨halted, walk, stopped⟩ := first
    refine ⟨halted, ?_, ?_⟩
    · rw [trace_bind_of_error ended, run_bind_of_error ended]
      rw [ended] at walk
      exact walk
    · intro s' is
      obtain ⟨after', stops⟩ := stopped s' is
      exact ⟨after', run_bind_of_error stops f⟩

section Bracket

variable {σ : Type} {enter : Machine → σ × Machine} {aside : σ → List (Closure × Environment)}
  {leave : σ → Machine → Machine} {x : Eval α}

theorem map_counted_bracket :
    ((Eval.bracket enter aside leave x).trace m).map Moment.counted =
      Moment.counted (.of (enter m).2) :: ((x.trace (enter m).2).map Moment.counted ++
        [Moment.counted (.of (leave (enter m).1 (x.run (enter m).2).machine))]) := by
  rw [trace_bracket, List.cons_append, List.map_cons, List.map_append, List.map_map]
  rfl

theorem machine_bracket :
    ((Eval.bracket enter aside leave x).run m).machine =
      leave (enter m).1 (x.run (enter m).2).machine := by
  dsimp only [Eval.bracket]
  cases x.run (enter m).2 <;> rfl

theorem error_bracket {s : Stop} {after : Machine}
    (inner : x.run (enter m).2 = .error s after) :
    (Eval.bracket enter aside leave x).run m = .error s (leave (enter m).1 after) := by
  dsimp only [Eval.bracket]
  rw [inner]

/-- A bracket that counts no call. -/
theorem bracket (inner : x.Walks setting (enter m).2) (depth : (enter m).2.depth = m.depth)
    (console : (enter m).2.console = m.console)
    (left : ∀ after, (leave (enter m).1 after).depth = after.depth ∧
      (leave (enter m).1 after).console = after.console) :
    (Eval.bracket enter aside leave x).Walks setting m := by
  have back := inner.depth_eq
  obtain ⟨halted, walk, stopped⟩ := inner
  obtain ⟨depth', console'⟩ := left (x.run (enter m).2).machine
  refine ⟨halted, ?_, ?_⟩
  · rw [map_counted_bracket, machine_bracket, Moment.counted, Moment.counted]
    dsimp only [Moment.of]
    rw [depth', back, depth]
    rw [depth] at walk
    exact .within (console ▸ .refl) (walk.concat console')
  · intro s is
    obtain ⟨after, stops⟩ := stopped s is
    exact ⟨_, error_bracket stops⟩

end Bracket

theorem inScope {x : Eval α} (inner : x.Walks setting m.push) :
    (Eval.inScope x).Walks setting m := by
  unfold Eval.inScope
  apply bracket inner rfl rfl
  exact fun _ => ⟨rfl, rfl⟩

theorem onCaptured {closure : Option Closure} {x : Eval α}
    (inner : ∀ inside, x.Walks setting inside) : (Eval.onCaptured closure x).Walks setting m := by
  cases closure with
  | none => exact inner m
  | some c =>
    unfold Eval.onCaptured
    apply bracket (inner (m.onFrame c.captured)) rfl rfl
    exact fun _ => ⟨rfl, rfl⟩

/-- A call that is counted in before its body and out after it. -/
theorem counted (call : Invocation) (fuel : Nat)
    (inner : (call.act setting fuel).Walks setting
      (m.enter call.definition call.closure.isSome)) :
    (Eval.counted call.definition call.closure.isSome (call.act setting fuel)).Walks setting m := by
  have back := inner.depth_eq
  unfold Eval.counted
  have left : ((call.act setting fuel).run
      (m.enter call.definition call.closure.isSome)).machine.leave.depth = m.depth := by
    rw [Machine.leave, back]
    exact Nat.add_sub_cancel m.depth 1
  have moments : ∀ h : List Moment,
      (h.map Moment.counted).map Prod.fst = h.map Moment.machine := fun h => List.map_map
  unfold Walks
  rw [map_counted_bracket, machine_bracket, Moment.counted, Moment.counted]
  dsimp only [Moment.of]
  rw [left]
  cases ended : (call.act setting fuel).run (m.enter call.definition call.closure.isSome) with
  | ok result after =>
    refine ⟨none, ?_, nofun⟩
    exact .returned call fuel rfl (inner.exists_walk ended) (moments _) ended rfl (.done _ _)
  | error s after =>
    obtain ⟨halted, walk, stopped⟩ := inner
    rw [ended] at walk stopped
    refine ⟨some s, ?_, ?_⟩
    · refine .halted call fuel rfl walk ?_ (moments _) ended rfl (.done _ _) ?_
      · intro s' is
        obtain ⟨_, stops⟩ := stopped s' is
        cases stops
        rfl
      · exact fun _ among => absurd among List.not_mem_nil
    · rintro s' ⟨⟩
      exact ⟨_, error_bracket ended⟩

/-! ## Steps that evaluate no expression -/

theorem bind_get {f : Machine → Eval α} (rest : (f m).Walks setting m) :
    (Eval.get >>= f).Walks setting m := by
  refine get.bind ?_
  rintro a after ⟨⟩
  exact rest

theorem modify {f : Machine → Machine} (depth : (f m).depth = m.depth)
    (uses : m.console.Uses (f m).console) : (Eval.modify f).Walks setting m :=
  change depth uses

theorem attempt (line : Nat) (result : Except RuntimeError.Cause α) :
    (Eval.attempt line result).Walks setting m := by
  cases result with
  | ok a => exact pure a
  | error cause => exact fail cause line

theorem record (e : Event) (plain : e.IsNote) : (Eval.record e).Walks setting m :=
  modify rfl (.note .refl plain)

theorem binding? (x : String) : (Eval.binding? x).Walks setting m := bind_get (pure _)

theorem interact (name : String) (values : List Value) (line : Nat) :
    (Eval.interact (Builtin.call? Builtin.all name values line)).Walks setting m := by
  apply change
  · cases Builtin.call? Builtin.all name values line m.console <;> rfl
  · cases called : Builtin.call? Builtin.all name values line m.console with
    | ok found c => exact Builtin.uses_of_call?_ok called
    | error e c => exact Builtin.uses_of_call?_error called

theorem objectOf (v : Value) (name : String) (line : Nat) :
    (Eval.objectOf v name line).Walks setting m := by
  cases v with
  | object o => exact pure o
  | _ => exact fail _ line

theorem memberOf (v : Value) (name : String) (line : Nat) :
    (Eval.memberOf v name line).Walks setting m := by
  refine (objectOf v name line).bind fun o after _ => bind_get ?_
  cases after.store.getMember o name with
  | some w => exact pure w
  | none => exact fail _ line

theorem follow (v : Value) (line : Nat) (names : List String) :
    (Eval.follow v line names).Walks setting m := by
  induction names generalizing v m with
  | nil => exact pure v
  | cons name names ih => exact (memberOf v name line).bind fun w _ _ => ih w

theorem setMember (o : ObjectId) (name : String) (v : Value) (line : Nat) :
    (Eval.setMember o name v line).Walks setting m := by
  apply bind_get
  cases m.store.setMember o name v with
  | ok s => exact modify rfl .refl
  | error kind => exact fail _ line

theorem assign (target : List String) (v : Value) (line : Nat) :
    (Eval.assign target v line).Walks setting m := by
  match target with
  | [] => exact fail _ line
  | [x] => exact modify rfl .refl
  | root :: field :: fields =>
    apply Walks.bind (binding? root)
    intro found after _
    cases found with
    | none => exact fail _ line
    | some w =>
      apply Walks.bind (follow w line _)
      intro holder m₁ _
      exact (objectOf holder _ line).bind fun o m₂ _ => setMember o _ v line

theorem lookup (x : String) (line : Nat) : (Eval.lookup setting x line).Walks setting m := by
  apply Walks.bind (binding? x)
  intro found after _
  cases found with
  | some v => exact pure v
  | none =>
    dsimp only
    split
    · exact fail _ line
    · exact pure _
    · exact fail _ line

theorem sourceOf (function : String) (p : Param) (arg : Expr) :
    (Eval.sourceOf function p arg).Walks setting m := by
  have refused : ∀ m : Machine,
      (if p.byRef then Eval.fail (.refNeedsVariable p.name function) arg.position.line
        else Pure.pure none : Eval (Option String)).Walks setting m := by
    intro m
    split
    · exact fail _ _
    · exact pure none
  unfold Eval.sourceOf
  dsimp only
  split
  · apply Walks.bind (binding? _)
    intro found after _
    split
    · exact pure _
    · exact refused after
  · exact refused m

theorem bindParams (ps : List Param) (passed : List Passed) :
    (Eval.bindParams ps passed).Walks setting m := by
  induction ps generalizing passed m with
  | nil => exact pure ()
  | cons p ps ih =>
    cases passed with
    | nil => exact pure ()
    | cons a as =>
      have bound : (Eval.create p.name a.value).Walks setting m := modify rfl .refl
      exact bound.bind fun _ _ _ => ih as

theorem bindThis (this : Option ObjectId) : (Eval.bindThis this).Walks setting m := by
  cases this with
  | none => exact pure ()
  | some o => exact modify rfl .refl

theorem writeBack (back : List (String × Value)) : (Eval.writeBack back).Walks setting m := by
  induction back generalizing m with
  | nil => exact pure ()
  | cons w rest ih =>
    have written : (Eval.set w.1 w.2).Walks setting m := modify rfl .refl
    exact written.bind fun _ _ _ => ih

end Walks

/-! ## Evaluation -/

/-- With so much fuel, all evaluating functions walk. -/
structure AllWalk (setting : Setting) (fuel : Nat) : Prop where
  expr : ∀ m e, (expr setting fuel e).Walks setting m
  exprs : ∀ m es, (exprs setting fuel es).Walks setting m
  callNamed : ∀ m callee args line, (callNamed setting fuel callee args line).Walks setting m
  callMethod : ∀ m object name args line,
    (callMethod setting fuel object name args line).Walks setting m
  callValue : ∀ m callee args this line,
    (callValue setting fuel callee args this line).Walks setting m
  pass : ∀ m function ps as, (pass setting fuel function ps as).Walks setting m
  invoke : ∀ m d closure passed this line,
    (invoke setting fuel d closure passed this line).Walks setting m
  invocation : ∀ m d closure passed this line,
    (invocation setting fuel d closure passed this line).Walks setting m
  body : ∀ m d passed this, (body setting fuel d passed this).Walks setting m
  stmts : ∀ m ss, (stmts setting fuel ss).Walks setting m
  block : ∀ m ss, (block setting fuel ss).Walks setting m
  stmt : ∀ m s, (stmt setting fuel s).Walks setting m
  loop : ∀ m test ss, (loop setting fuel test ss).Walks setting m
  condition : ∀ m word test, (condition setting fuel word test).Walks setting m

section Less

variable {fuel : Nat} (less : AllWalk setting fuel) (m : Machine)

include less

theorem walks_expr (e : Expr) : (expr setting (fuel + 1) e).Walks setting m := by
  cases e with
  | int | bool | str | nil =>
    rw [expr]
    exact .pure _
  | object =>
    rw [expr]
    exact .change rfl .refl
  | lambda d =>
    rw [expr]
    exact .change rfl .refl
  | var name place =>
    rw [expr]
    exact .lookup name place.line
  | member object field place =>
    rw [expr]
    exact (less.expr m object).bind fun v _ _ => .memberOf v field place.line
  | call callee args place =>
    rw [expr]
    exact less.callNamed m callee args place.line
  | method object name args place =>
    rw [expr]
    exact less.callMethod m object name args place.line
  | binary op left right place =>
    rw [expr]
    apply Walks.bind (less.expr m left)
    intro l m₁ _
    exact (less.expr m₁ right).bind fun r _ _ => .attempt place.line _
  | unary op operand place =>
    rw [expr]
    exact (less.expr m operand).bind fun v _ _ => .attempt place.line _

theorem walks_exprs (es : List Expr) : (exprs setting (fuel + 1) es).Walks setting m := by
  cases es with
  | nil =>
    rw [exprs]
    exact .pure []
  | cons e es =>
    rw [exprs]
    apply Walks.bind (less.expr m e)
    intro v m₁ _
    exact (less.exprs m₁ es).bind fun vs _ _ => .pure (v :: vs)

theorem walks_callNamed (callee : String) (args : List Expr) (line : Nat) :
    (callNamed setting (fuel + 1) callee args line).Walks setting m := by
  rw [callNamed]
  split
  · apply Walks.bind (less.exprs m args)
    intro values m₁ _
    apply Walks.bind (Walks.interact callee values line)
    intro found _ _
    cases found with
    | some v => exact .pure v
    | none => exact .fail _ line
  · apply Walks.bind (Walks.binding? callee)
    intro found after _
    cases found with
    | some v =>
      dsimp only
      split
      · exact less.callValue after v args none line
      · exact .fail _ line
    | none =>
      dsimp only
      split
      · exact less.callValue after _ args none line
      · split
        · exact .fail _ line
        · exact .fail _ line

theorem walks_callMethod (object : Expr) (name : String) (args : List Expr) (line : Nat) :
    (callMethod setting (fuel + 1) object name args line).Walks setting m := by
  rw [callMethod]
  apply Walks.bind (less.expr m object)
  intro receiver m₁ _
  refine (Walks.objectOf receiver name line).bind fun o m₂ _ => .bind_get ?_
  split
  · exact .fail _ line
  · split
    · exact less.callValue m₂ _ args (some o) line
    · exact .fail _ line

theorem walks_callValue (callee : Value) (args : List Expr) (this : Option ObjectId)
    (line : Nat) : (callValue setting (fuel + 1) callee args this line).Walks setting m := by
  rw [callValue]
  split
  · exact .fail _ line
  · next d closure _ =>
    split
    · apply Walks.bind (less.pass m d.name d.params args)
      intro passed after _
      exact less.invoke after d closure passed this line
    · exact .fail _ line

theorem walks_pass (function : String) (ps : List Param) (as : List Expr) :
    (pass setting (fuel + 1) function ps as).Walks setting m := by
  match ps, as with
  | p :: ps, a :: as =>
    rw [pass]
    apply Walks.bind (less.expr m a)
    intro v m₁ _
    apply Walks.bind (Walks.sourceOf function p a)
    intro source m₂ _
    exact (less.pass m₂ function ps as).bind fun rest _ _ => .pure (⟨v, source⟩ :: rest)
  | [], as =>
    rw [pass.eq_def]
    exact .pure []
  | _ :: _, [] =>
    rw [pass.eq_def]
    exact .pure []

theorem walks_invoke (d : Definition) (closure : Option Closure) (passed : List Passed)
    (this : Option ObjectId) (line : Nat) :
    (invoke setting (fuel + 1) d closure passed this line).Walks setting m := by
  rw [invoke]
  apply Walks.bind (less.invocation m d closure passed this line)
  intro ended m₁ _
  exact (Walks.writeBack ended.2).bind fun _ _ _ => .pure ended.1

/-- Here the walk goes into a call. -/
theorem walks_invocation (d : Definition) (closure : Option Closure) (passed : List Passed)
    (this : Option ObjectId) (line : Nat) :
    (invocation setting (fuel + 1) d closure passed this line).Walks setting m := by
  rw [invocation]
  apply Walks.bind_get
  dsimp only
  split
  · exact .fail _ line
  · exact .counted ⟨d, closure, passed, this⟩ fuel
      (.onCaptured fun inside => less.body inside d passed this)

theorem walks_body (d : Definition) (passed : List Passed) (this : Option ObjectId) :
    (body setting (fuel + 1) d passed this).Walks setting m := by
  rw [body]
  apply Walks.inScope
  apply Walks.bind (Walks.bindParams d.params passed)
  intro _ m₁ _
  apply Walks.bind (Walks.bindThis this)
  intro _ m₂ _
  exact (less.stmts m₂ d.body).bind fun flow _ _ => .bind_get (.pure _)

theorem walks_stmts (ss : List Stmt) : (stmts setting (fuel + 1) ss).Walks setting m := by
  cases ss with
  | nil =>
    rw [stmts]
    exact .pure _
  | cons s rest =>
    rw [stmts]
    apply Walks.bind (less.stmt m s)
    intro flow after _
    cases flow with
    | next => exact less.stmts after rest
    | returned v => exact .pure _

theorem walks_block (ss : List Stmt) : (block setting (fuel + 1) ss).Walks setting m := by
  rw [block]
  exact .inScope (less.stmts m.push ss)

theorem walks_stmt (s : Stmt) : (stmt setting (fuel + 1) s).Walks setting m := by
  have logged : ∀ {f : Unit → Eval Flow} {line : Nat},
      (∀ after, (f ()).Walks setting after) →
        (record (.executed line) >>= f).Walks setting m :=
    fun rest => (Walks.record (.executed _) trivial).bind fun _ after _ => rest after
  cases s with
  | assign target value place =>
    rw [stmt]
    refine logged fun m₁ => (less.expr m₁ value).bind fun v m₂ _ => ?_
    exact (Walks.assign target v place.line).bind fun _ _ _ => .pure _
  | call e =>
    rw [stmt]
    exact logged fun m₁ => (less.expr m₁ e).bind fun _ _ _ => .pure _
  | branch test yes no place =>
    rw [stmt.eq_def]
    dsimp only
    refine logged fun m₁ => (less.condition m₁ .ifWord test).bind fun taken m₂ _ => ?_
    cases taken with
    | true => exact less.block m₂ yes
    | false =>
      cases no with
      | some no => exact less.block m₂ no
      | none => exact .pure _
  | loop test ss place =>
    rw [stmt]
    exact logged fun m₁ => less.loop m₁ test ss
  | ret value place =>
    cases value with
    | none =>
      rw [stmt]
      exact logged fun _ => .pure _
    | some value =>
      rw [stmt]
      exact logged fun m₁ => (less.expr m₁ value).bind fun v _ _ => .pure _

theorem walks_loop (test : Expr) (ss : List Stmt) :
    (loop setting (fuel + 1) test ss).Walks setting m := by
  rw [loop]
  apply Walks.bind (less.condition m .whileWord test)
  intro again m₁ _
  cases again with
  | false => exact .pure _
  | true =>
    apply Walks.bind (less.block m₁ ss)
    intro flow m₂ _
    cases flow with
    | next => exact less.loop m₂ test ss
    | returned v => exact .pure _

theorem walks_condition (word : Keyword) (test : Expr) :
    (condition setting (fuel + 1) word test).Walks setting m := by
  rw [condition]
  apply Walks.bind (less.expr m test)
  intro v after _
  split
  · exact .pure _
  · exact .fail _ _

end Less

theorem allWalk (setting : Setting) (fuel : Nat) : AllWalk setting fuel := by
  induction fuel with
  | zero =>
    constructor <;> intros
    case expr => rw [expr]; exact .stop _
    case exprs => rw [exprs]; exact .stop _
    case callNamed => rw [callNamed]; exact .stop _
    case callMethod => rw [callMethod]; exact .stop _
    case callValue => rw [callValue]; exact .stop _
    case pass => rw [pass]; exact .stop _
    case invoke => rw [invoke]; exact .stop _
    case invocation => rw [invocation]; exact .stop _
    case body => rw [body]; exact .stop _
    case stmts => rw [stmts]; exact .stop _
    case block => rw [block]; exact .stop _
    case stmt => rw [stmt]; exact .stop _
    case loop => rw [loop]; exact .stop _
    case condition => rw [condition]; exact .stop _
  | succ fuel less =>
    exact {
      expr := walks_expr less
      exprs := walks_exprs less
      callNamed := walks_callNamed less
      callMethod := walks_callMethod less
      callValue := walks_callValue less
      pass := walks_pass less
      invoke := walks_invoke less
      invocation := walks_invocation less
      body := walks_body less
      stmts := walks_stmts less
      block := walks_block less
      stmt := walks_stmt less
      loop := walks_loop less
      condition := walks_condition less }

/-- A run that starts with no call under way. -/
theorem walks_main (none : m.depth = 0) (fuel : Nat) : (main setting fuel).Walks setting m := by
  unfold main
  split
  · exact .fail _ 0
  · apply Walks.bind (Walks.record (.started _) trivial)
    intro _ m₁ logged
    have still : m₁.depth = 0 := by
      cases logged
      exact none
    apply Walks.bind (Walks.modify still.symm .refl)
    intro _ m₂ _
    exact ((allWalk setting fuel).invoke m₂ _ _ _ _ _).bind fun _ _ _ => .pure ()

end Eval

end Protoscript

import Protoscript.Proofs.ClosureIsolation
import Protoscript.Proofs.Identity.Slots
import Protoscript.Proofs.ReferenceParameters

/-! # What calls hand on

The frame of a call holds what its arguments came to, each under the name of its parameter, and in a
method the receiver; and nothing else (`Enacted.given`).  Then the body runs, and the call comes to
what the body comes to: the value that it returned, which a return statement of the body gave at a
moment of its run (`answered`), and in the variables that were passed by reference the
values that their parameters held at the end. -/

set_option autoImplicit false

namespace Protoscript

open Eval (Passed Returned)

/-! ## What a call is given -/

/-- The expressions come to these values, one after the other, from `m` to `n`. -/
inductive Machine.Evaluates (setting : Setting) :
    Machine → List Expr → List Value → Machine → Prop
  | nil (m : Machine) : Evaluates setting m [] [] m
  | cons {fuel : Nat} {m m₁ n : Machine} {e : Expr} {es : List Expr} {v : Value} {vs : List Value}
    (value : (Eval.expr setting fuel e).run m = .ok v m₁) (later : Evaluates setting m₁ es vs n) :
    Evaluates setting m (e :: es) (v :: vs) n

/-- What a call binds in its frame, in this order. -/
def Call.given (c : Call) (vs : List Value) : List (String × Value) :=
  (c.definition.params.map Param.name).zip vs ++ (c.this.map fun o => ("this", .object o)).toList

/-- Binds names in the innermost frame, one after the other. -/
def Machine.createAll (m : Machine) (given : List (String × Value)) : Machine :=
  given.foldl (fun n w => n.create w.1 w.2) m

namespace Machine

variable {m : Machine} {given : List (String × Value)}

theorem createAll_env : (m.createAll given).env = m.env := by
  induction given generalizing m with
  | nil => rfl
  | cons w given ih => exact ih (m := m.create w.1 w.2)

theorem WellFormed.createAll (wf : m.WellFormed) (known : ∀ w ∈ given, m.store.Has w.2) :
    (m.createAll given).WellFormed := by
  induction given generalizing m with
  | nil => exact wf
  | cons w given ih =>
    refine ih (wf.bind (known w List.mem_cons_self) m.env.inner w.1) ?_
    intro u later
    exact (Store.Extends.bind m.store m.env.inner w.1 w.2).has
      (known u (List.mem_cons_of_mem w later))

/-- The last value bound to a name stays. -/
theorem get?_frame_createAll (allocated : m.env.inner.index < m.store.frames.size) (x : String) :
    ((m.createAll given).store.frame m.env.inner).get? x =
      (given.reverse.lookup x).or ((m.store.frame m.env.inner).get? x) := by
  induction given generalizing m with
  | nil => rfl
  | cons w given ih =>
    obtain ⟨y, v⟩ := w
    have allocated' : (m.create y v).env.inner.index < (m.create y v).store.frames.size :=
      Nat.lt_of_lt_of_eq allocated (m.store.size_frames_bind m.env.inner y v).symm
    have bound : ((m.create y v).store.frame m.env.inner).get? x =
        if x = y then some v else (m.store.frame m.env.inner).get? x := by
      rw [create, Environment.create, Store.frame_bind_self allocated, Bindings.get?_insert]
    rw [createAll, List.foldl_cons, List.reverse_cons, List.lookup_append, Option.or_assoc]
    refine (ih allocated').trans (congrArg _ (bound.trans ?_))
    by_cases named : x = y
    · rw [if_pos named, List.lookup_cons, beq_iff_eq.mpr named]
      rfl
    · rw [if_neg named, List.lookup_cons, beq_eq_false_iff_ne.mpr named]
      rfl

/-- What is bound in a new scope is all that its frame holds. -/
theorem get?_frame_push_createAll (wf : m.WellFormed) (x : String) :
    ((m.push.createAll given).store.frame (m.push.createAll given).env.inner).get? x =
      given.reverse.lookup x := by
  have empty : m.push.store.frame m.push.env.inner = .empty := Store.frame_push_self rfl
  have allocated := wf.push.env _ m.push.env.inner_mem_frames
  rw [createAll_env, get?_frame_createAll allocated, empty, Bindings.get?_empty, Option.or_none]

end Machine

namespace Eval

variable {setting : Setting} {fuel line : Nat} {m n m₁ : Machine} {d : Definition}
  {closure : Option Closure} {passed : List Passed} {this : Option ObjectId} {ps : List Param}
  {as : List Expr} {function : String}

theorem evaluates_of_pass (arity : ps.length = as.length)
    (ended : (pass setting fuel function ps as).run m = .ok passed n) :
    m.Evaluates setting as (passed.map Passed.value) n := by
  induction ps generalizing fuel as m passed with
  | nil =>
    obtain rfl := List.length_eq_zero_iff.mp arity.symm
    cases fuel with
    | zero => exact absurd ended run_pass_zero_ne
    | succ fuel =>
      rw [pass_nil] at ended
      cases ended
      exact .nil _
  | cons p ps ih =>
    obtain ⟨a, as, rfl⟩ := List.exists_cons_of_length_eq_add_one arity.symm
    cases fuel with
    | zero => exact absurd ended run_pass_zero_ne
    | succ fuel =>
      obtain ⟨v, source, rest, m₁, rfl, value, -, later⟩ := pass_cons ended
      exact .cons value (ih (Nat.succ.inj arity) later)

theorem run_bindParams (ps : List Param) (passed : List Passed) (m : Machine) :
    (bindParams ps passed).run m =
      .ok () (m.createAll ((ps.map Param.name).zip (passed.map Passed.value))) := by
  induction ps generalizing passed m with
  | nil => rfl
  | cons p ps ih =>
    cases passed with
    | nil => rfl
    | cons a passed =>
      have first : (create p.name a.value).run m = .ok () (m.create p.name a.value) := rfl
      rw [bindParams, run_bind_of_ok first]
      exact ih passed (m.create p.name a.value)

/-- A body runs in a new frame that holds what the call is given. -/
theorem run_body (c : Call) (passed : List Passed) (m : Machine) :
    (body setting (fuel + 1) c.definition passed c.this).run m =
      match (stmts setting fuel c.definition.body).run
        (m.push.createAll (c.given (passed.map Passed.value))) with
      | .ok flow last => .ok (flow.value, finalValues last c.definition.params passed) last.pop
      | .error s last => .error s last.pop := by
  obtain ⟨d, closure, args, this, line⟩ := c
  have method : ∀ n : Machine, (bindThis this).run n =
      .ok () (n.createAll (this.map fun o => ("this", Value.object o)).toList) := by
    intro n
    cases this <;> rfl
  have given :
      m.push.createAll (Call.given ⟨d, closure, args, this, line⟩ (passed.map Passed.value)) =
        (m.push.createAll ((d.params.map Param.name).zip (passed.map Passed.value))).createAll
          (this.map fun o => ("this", Value.object o)).toList := List.foldl_append
  rw [body, given]
  dsimp only [inScope, bracket]
  rw [run_bind_of_ok (run_bindParams d.params passed m.push), run_bind_of_ok (method _), run_bind]
  cases (stmts setting fuel d.body).run _ <;> rfl

/-- A call that the limit allows comes to what its body comes to, which runs on the store as the
call finds it. -/
theorem run_invocation_of_allowed (wf : m.WellFormed) {c : Call}
    (closed : scopeDiscipline.Closed m c.closure) (allowed : setting.reached? m.depth = none)
    (fuel : Nat) (passed : List Passed) :
    ∃ (inside : Machine) (leave : Machine → Machine), inside.WellFormed ∧ inside.store = m.store ∧
      (invocation setting (fuel + 1) c.definition c.closure passed c.this c.line).run m =
        ((body setting fuel c.definition passed c.this).run inside).withMachine leave := by
  obtain ⟨d, closure, args, this, line⟩ := c
  cases closure with
  | none =>
    refine ⟨m.enter d false, Machine.leave, ⟨wf.store, wf.env⟩, rfl, ?_⟩
    rw [invocation, Option.isSome_none, run_entered, allowed]
    dsimp only [counted, onCaptured, bracket]
    cases (body setting fuel d passed this).run (m.enter d false) <;> rfl
  | some c =>
    refine ⟨(m.enter d true).onFrame c.captured, fun after => (after.onEnv m.env).leave,
      ⟨wf.store, ?_⟩, rfl, ?_⟩
    · intro g used
      rw [List.mem_singleton.mp used]
      exact wf.store.captured c (closed c rfl)
    · rw [run_invocation, allowed]

/-! ## Where a returned value is from -/

/-- The value is what a return statement in one of the statements gives at one of the moments: that
of its expression there, or nil if it has none. -/
inductive Answers (setting : Setting) (ss : List Stmt) (h : List Moment) : Value → Prop
  | bare {s : Stmt} {place : Position} (among : s ∈ ss)
    (inside : Relation.ReflTransGen Tree.PartOf (.stmt (.ret none place)) (.stmt s)) :
    Answers setting ss h .nil
  | valued {s : Stmt} {e : Expr} {place : Position} {μ : Moment} {fuel : Nat} {v : Value}
    {after : Machine} (among : s ∈ ss)
    (inside : Relation.ReflTransGen Tree.PartOf (.stmt (.ret (some e) place)) (.stmt s))
    (passed : μ ∈ h) (value : (expr setting fuel e).run μ.machine = .ok v after) :
    Answers setting ss h v

/-- Statements that stand in others, and moments that are among others. -/
theorem Answers.mono {ss ts : List Stmt} {h g : List Moment} {v : Value}
    (answers : Answers setting ss h v)
    (inside : ∀ s ∈ ss, ∃ t ∈ ts, Relation.ReflTransGen Tree.PartOf (.stmt s) (.stmt t))
    (passed : ∀ μ ∈ h, μ ∈ g) : Answers setting ts g v := by
  cases answers with
  | bare among within =>
    obtain ⟨t, among, further⟩ := inside _ among
    exact .bare among (within.trans further)
  | valued among within here value =>
    obtain ⟨t, among, further⟩ := inside _ among
    exact .valued among (within.trans further) (passed _ here) value

theorem mem_history_inScope {α : Type} {x : Eval α} {μ : Moment} (passed : μ ∈ x.history m.push) :
    μ ∈ (inScope x).history m := by
  apply List.mem_cons_of_mem
  unfold inScope
  rw [trace_bracket, List.cons_append]
  rcases List.mem_cons.mp passed with rfl | passed
  · exact List.mem_cons_self
  · apply List.mem_cons_of_mem
    apply List.mem_append_left
    exact List.mem_map.mpr ⟨μ, passed, by rw [Moment.under, List.append_nil]⟩

/-- A value that code returns is that of a return statement in it. -/
structure Answered (setting : Setting) (fuel : Nat) : Prop where
  stmts : ∀ {ss m v after}, (stmts setting fuel ss).run m = .ok (.returned v) after →
    Answers setting ss ((stmts setting fuel ss).history m) v
  block : ∀ {ss m v after}, (block setting fuel ss).run m = .ok (.returned v) after →
    Answers setting ss ((block setting fuel ss).history m) v
  stmt : ∀ {s m v after}, (stmt setting fuel s).run m = .ok (.returned v) after →
    Answers setting [s] ((stmt setting fuel s).history m) v
  loop : ∀ {test ss m v after}, (loop setting fuel test ss).run m = .ok (.returned v) after →
    Answers setting ss ((loop setting fuel test ss).history m) v

theorem stmt_branch (test : Expr) (yes : List Stmt) (no : Option (List Stmt)) (place : Position) :
    stmt setting (fuel + 1) (.branch test yes no place) = (do
      record (.executed place.line)
      if ← condition setting fuel .ifWord test then
        block setting fuel yes
      else
        no.elim (pure .next) (block setting fuel)) := by
  cases no <;> rw [stmt] <;> rfl

section Answered

variable {v : Value} {after : Machine} (less : Answered setting fuel)

include less

theorem answers_stmts {ss : List Stmt}
    (ended : (stmts setting (fuel + 1) ss).run m = .ok (.returned v) after) :
    Answers setting ss ((stmts setting (fuel + 1) ss).history m) v := by
  cases ss with
  | nil =>
    rw [stmts] at ended
    cases ended
  | cons s rest =>
    rw [stmts] at ended ⊢
    obtain ⟨flow, between, first, later⟩ := run_bind_eq_ok ended
    cases flow with
    | next =>
      refine (less.stmts later).mono ?_ fun μ passed => ?_
      · exact fun t among => ⟨t, List.mem_cons_of_mem s among, .refl⟩
      · refine mem_history_bind_of_ok first ?_
        exact passed
    | returned w =>
      cases later
      refine (less.stmt first).mono ?_ fun μ passed => mem_history_bind passed
      exact fun t among => ⟨t, List.mem_cons.mpr (.inl (List.mem_singleton.mp among)), .refl⟩

theorem answers_block {ss : List Stmt}
    (ended : (block setting (fuel + 1) ss).run m = .ok (.returned v) after) :
    Answers setting ss ((block setting (fuel + 1) ss).history m) v := by
  rw [block] at ended ⊢
  have inside : ∃ last, (stmts setting fuel ss).run m.push = .ok (.returned v) last := by
    dsimp only [inScope, bracket] at ended
    split at ended
    · next flow last ran =>
      cases ended
      exact ⟨last, ran⟩
    · cases ended
  obtain ⟨last, ran⟩ := inside
  exact (less.stmts ran).mono (fun s among => ⟨s, among, .refl⟩) fun μ => mem_history_inScope

theorem answers_loop {test : Expr} {ss : List Stmt}
    (ended : (loop setting (fuel + 1) test ss).run m = .ok (.returned v) after) :
    Answers setting ss ((loop setting (fuel + 1) test ss).history m) v := by
  rw [loop] at ended ⊢
  obtain ⟨holds, m₁, tested, ended⟩ := run_bind_eq_ok ended
  cases holds with
  | false => cases ended
  | true =>
    rw [if_pos rfl] at ended
    obtain ⟨flow, m₂, once, ended⟩ := run_bind_eq_ok ended
    cases flow with
    | next =>
      refine (less.loop ended).mono (fun s among => ⟨s, among, .refl⟩) fun μ passed => ?_
      refine mem_history_bind_of_ok tested ?_
      rw [if_pos rfl]
      refine mem_history_bind_of_ok once ?_
      exact passed
    | returned w =>
      cases ended
      refine (less.block once).mono (fun s among => ⟨s, among, .refl⟩) fun μ passed => ?_
      refine mem_history_bind_of_ok tested ?_
      rw [if_pos rfl]
      exact mem_history_bind passed

theorem answers_branch {test : Expr} {yes : List Stmt} {no : Option (List Stmt)} {place : Position}
    (ended :
      (stmt setting (fuel + 1) (.branch test yes no place)).run m = .ok (.returned v) after) :
    Answers setting [.branch test yes no place]
      ((stmt setting (fuel + 1) (.branch test yes no place)).history m) v := by
  rw [stmt_branch] at ended ⊢
  obtain ⟨_, m₁, noted, ended⟩ := run_bind_eq_ok ended
  obtain ⟨holds, m₂, tested, ended⟩ := run_bind_eq_ok ended
  cases holds with
  | true =>
    rw [if_pos rfl] at ended
    refine (less.block ended).mono ?_ fun μ passed => ?_
    · exact fun s among => ⟨_, List.mem_singleton_self _, .single (.yes among test no place)⟩
    · refine mem_history_bind_of_ok noted (mem_history_bind_of_ok tested ?_)
      rw [if_pos rfl]
      exact passed
  | false =>
    rw [if_neg Bool.false_ne_true] at ended
    cases no with
    | none => cases ended
    | some no =>
      refine (less.block ended).mono ?_ fun μ passed => ?_
      · exact fun s among => ⟨_, List.mem_singleton_self _, .single (.no among test yes place)⟩
      · refine mem_history_bind_of_ok noted (mem_history_bind_of_ok tested ?_)
        rw [if_neg Bool.false_ne_true]
        exact passed

theorem answers_stmt {s : Stmt}
    (ended : (stmt setting (fuel + 1) s).run m = .ok (.returned v) after) :
    Answers setting [s] ((stmt setting (fuel + 1) s).history m) v := by
  cases s with
  | branch test yes no place => exact answers_branch less ended
  | assign target value place =>
    rw [stmt] at ended
    obtain ⟨-, m₁, -, ended⟩ := run_bind_eq_ok ended
    obtain ⟨w, m₂, -, ended⟩ := run_bind_eq_ok ended
    obtain ⟨-, m₃, -, ended⟩ := run_bind_eq_ok ended
    cases ended
  | call e =>
    rw [stmt] at ended
    obtain ⟨-, m₁, -, ended⟩ := run_bind_eq_ok ended
    obtain ⟨w, m₂, -, ended⟩ := run_bind_eq_ok ended
    cases ended
  | loop test body place =>
    rw [stmt] at ended ⊢
    obtain ⟨_, m₁, noted, ended⟩ := run_bind_eq_ok ended
    refine (less.loop ended).mono ?_ fun μ passed => mem_history_bind_of_ok noted passed
    exact fun s among => ⟨_, List.mem_singleton_self _, .single (.looped among test place)⟩
  | ret value place =>
    cases value with
    | none =>
      rw [stmt] at ended
      cases ended
      exact .bare (List.mem_singleton_self _) .refl
    | some e =>
      rw [stmt] at ended ⊢
      obtain ⟨_, m₁, noted, ended⟩ := run_bind_eq_ok ended
      obtain ⟨w, m₂, value, ended⟩ := run_bind_eq_ok ended
      cases ended
      exact .valued (List.mem_singleton_self _) .refl
        (mem_history_bind_of_ok noted List.mem_cons_self) value

end Answered

/-- Whatever the fuel, by induction on it. -/
theorem answered (setting : Setting) (fuel : Nat) : Answered setting fuel := by
  induction fuel with
  | zero =>
    refine ⟨?_, ?_, ?_, ?_⟩
    · intro ss m v after ended
      rw [stmts] at ended
      cases ended
    · intro ss m v after ended
      rw [block] at ended
      cases ended
    · intro s m v after ended
      rw [stmt] at ended
      cases ended
    · intro test ss m v after ended
      rw [loop] at ended
      cases ended
  | succ fuel less =>
    exact ⟨answers_stmts less, answers_block less, answers_stmt less, answers_loop less⟩

/-! ## Calls -/

/-- A call of `c` on the values `vs`, which were evaluated up to `m`.  Its body is run with the fuel
`less` from the machine `bound`, and the call comes to `out`. -/
structure Enacted (setting : Setting) (less : Nat) (c : Call) (vs : List Value) (m bound : Machine)
    (out : Outcome Value) : Prop where
  /-- The frame of the call is a new one, -/
  inner : bound.env.inner = ⟨m.store.frames.size⟩
  /-- and holds what the call is given, of one name the last, and nothing else. -/
  given : ∀ x, bound.store.held? (.binding bound.env.inner x) = (c.given vs).reverse.lookup x
  /-- If the body ends well, the call has the value of its flow, and the variables that were given
  for parameters passed by reference have got what these hold then. -/
  ended : ∀ flow last, (stmts setting less c.definition.body).run bound = .ok flow last →
    ∃ back after, out = .ok flow.value after ∧
      Returned (last.store.frame bound.env.inner) c.definition.params c.args back ∧
      ∀ x v, back.reverse.lookup x = some v → after.get? x = some v
  /-- A value that the body returned is that of a return statement in it. -/
  answers : ∀ v last, (stmts setting less c.definition.body).run bound = .ok (.returned v) last →
    Answers setting c.definition.body ((stmts setting less c.definition.body).history bound) v
  stopped : ∀ s last, (stmts setting less c.definition.body).run bound = .error s last →
    ∃ after, out = .error s after

theorem isSome_lookup_given {c : Call} (handed : Handed c.definition.params as passed) {p : Param}
    (among : p ∈ c.definition.params) :
    ((c.given (passed.map Passed.value)).reverse.lookup p.name).isSome = true := by
  have names : ((c.definition.params.map Param.name).zip (passed.map Passed.value)).map Prod.fst =
      c.definition.params.map Param.name :=
    List.map_fst_zip (by rw [List.length_map, List.length_map, handed.length_eq])
  have named : p.name ∈ c.definition.params.map Param.name := List.mem_map_of_mem among
  rw [← names] at named
  obtain ⟨w, given, same⟩ := List.mem_map.mp named
  refine List.lookup_isSome_iff.mpr ⟨w, ?_, beq_iff_eq.mpr same.symm⟩
  exact List.mem_reverse.mpr (List.mem_append_left _ given)

theorem has_given {c : Call} {s : Store} {vs : List Value} (values : ∀ v ∈ vs, s.Has v)
    (receiver : ∀ o, c.this = some o → s.Has (.object o)) : ∀ w ∈ c.given vs, s.Has w.2 := by
  intro w given
  rcases List.mem_append.mp given with given | given
  · exact values w.2 (List.of_mem_zip given).2
  · obtain ⟨o, is, rfl⟩ := Option.map_eq_some_iff.mp (Option.mem_toList.mp given)
    exact receiver o is

/-- What the parameters passed by reference hold when the body has ended well. -/
theorem returned_of_stmts {bound last : Machine} {flow : Flow} (wf : bound.WellFormed)
    {body : List Stmt} (ran : (stmts setting fuel body).run bound = .ok flow last)
    (handed : Handed ps as passed)
    (names : ∀ p ∈ ps, (bound.store.frame bound.env.inner).contains p.name = true) :
    Returned (last.store.frame bound.env.inner) ps as (finalValues last ps passed) := by
  have ended := (((scopeDiscipline.lawful setting).kept fuel).stmts bound body
    (fun _ _ => trivial) wf).ends
  rw [ran] at ended
  have kept : bound.Scoped .statement last := ended.rel
  have stack : last.env = bound.env := kept.stack.env
  rw [← stack]
  refine returned_finalValues handed fun p among => ?_
  rw [stack]
  exact kept.store.names _ _ (names p among)

/-- Calls hand on what they are given and what comes of them. -/
theorem enacted_of_calls {less : Nat} {e : Expr} {c : Call} (wf : m.WellFormed)
    (calls : m.Calls setting (less + 4) e n c) (arity : c.definition.arity = c.args.length)
    (evaluated : (pass setting (less + 3) c.definition.name c.definition.params c.args).run n =
      .ok passed m₁) (allowed : setting.reached? m₁.depth = none) :
    ∃ bound, Enacted setting less c (passed.map Passed.value) m₁ bound
      ((expr setting (less + 6) e).run m) := by
  obtain ⟨callee, can, same⟩ := calls.exists_callee wf
  have handed := handed_of_pass arity evaluated
  obtain ⟨wf₁, -, closed, given, received⟩ :=
    scoped_pass can.wf can.code can.callee can.receiver evaluated
  obtain ⟨inside, leave, wfInside, store, called⟩ :=
    run_invocation_of_allowed wf₁ closed allowed (less + 1) passed
  rw [run_body] at called
  -- The expression comes to the call up to its write-backs, and these.
  have out : (expr setting (less + 6) e).run m = (do
      let ended ← invocation setting (less + 2) c.definition c.closure passed c.this c.line
      writeBack ended.2
      return ended.1 : Eval Value).run m₁ := by
    rw [same, callValue, can.code]
    dsimp only
    rw [if_pos arity, run_bind_of_ok evaluated, invoke]
  let bound := inside.push.createAll (c.given (passed.map Passed.value))
  have wfBound : bound.WellFormed := by
    have pushed := Store.Extends.newFrame inside.store .empty
    refine wfInside.push.createAll (has_given ?_ ?_)
    · intro v value
      obtain ⟨a, among, rfl⟩ := List.mem_map.mp value
      exact pushed.has (store ▸ (given a among).value)
    · exact fun o is => pushed.has (store ▸ received o is)
  have held : ∀ x, (bound.store.frame bound.env.inner).get? x =
      (c.given (passed.map Passed.value)).reverse.lookup x :=
    Machine.get?_frame_push_createAll wfInside
  have inner : bound.env.inner = ⟨inside.store.frames.size⟩ :=
    congrArg Environment.inner Machine.createAll_env
  refine ⟨bound, by rw [inner, store], held, ?_, ?_, ?_⟩
  · intro flow last ran
    rw [ran] at called
    obtain ⟨wf₂, -, returns⟩ := scoped_invocation wf₁ closed given received called
    refine ⟨_, _, ?_, ?_, fun x v => Machine.get?_writes wf₂ returns⟩
    · rw [out, run_bind_of_ok called, run_bind_of_ok (run_writeBack _ _)]
      rfl
    · refine returned_of_stmts wfBound ran handed fun p among => ?_
      rw [Bindings.contains, held]
      exact isSome_lookup_given handed among
  · exact fun v last ran => (answered setting less).stmts ran
  · intro s last ran
    rw [ran] at called
    exact ⟨_, by rw [out, run_bind_of_error called]⟩

end Eval

end Protoscript

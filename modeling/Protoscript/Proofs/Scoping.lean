import Mathlib.Data.List.Find
import Protoscript.Proofs.Allocation
import Protoscript.Proofs.StackDiscipline

/-! # Scoping

No name leaks out of a scope.  Expressions, calls and blocks leave every frame that was there with
the names it had; a statement may only add a name to the innermost frame, and only one that no
frame of the environment has.  So a bound name stays bound in its frame, and a variable that
was bound when an argument named it is still bound when the call writes back. -/

set_option autoImplicit false

namespace Protoscript

/-- Nothing goes away, and no frame loses a name. -/
structure Store.Remembers (s t : Store) : Prop extends s.Extends t where
  names : ∀ f name, (s.frame f).contains name = true → (t.frame f).contains name = true

namespace Store.Remembers

variable {s t u : Store}

theorem refl (s : Store) : s.Remembers s := ⟨.refl s, fun _ _ bound => bound⟩

theorem trans (first : s.Remembers t) (second : t.Remembers u) : s.Remembers u :=
  ⟨first.toExtends.trans second.toExtends,
    fun f name bound => second.names f name (first.names f name bound)⟩

/-- A store whose frames are at least those of another. -/
theorem of_frame_eq (extends_ : s.Extends t)
    (same : ∀ f, f.index < s.frames.size → t.frame f = s.frame f) : s.Remembers t where
  toExtends := extends_
  names f name bound := by
    rw [same f (allocated_of_contains bound)]
    exact bound

theorem bind {f : FrameId} (allocated : f.index < s.frames.size) (name : String) (v : Value) :
    s.Remembers (s.bind f name v) where
  toExtends := .bind s f name v
  names g other bound := (contains_frame_bind allocated g name other v).mpr (.inl bound)

end Store.Remembers

/-- How frames may change from the start of an expression or a statement to its end: what names they
have, and that only those in use and those that closures captured are written at all. -/
structure Machine.Scoped (e : Extent) (m after : Machine) : Prop where
  stack : m.SameStack after
  store : m.store.Remembers after.store
  gained : ∀ f, f.index < m.store.frames.size → ∀ name,
    (after.store.frame f).contains name = true →
      (m.store.frame f).contains name = true ∨ e = .statement ∧ f = m.env.inner
  untouched : ∀ f, f.index < m.store.frames.size → f ∉ m.env.frames → ¬ m.store.Captures f →
    after.store.frame f = m.store.frame f

namespace Machine.Scoped

variable {e : Extent} {m m₁ m₂ : Machine}

theorem refl (e : Extent) (m : Machine) : m.Scoped e m :=
  ⟨.refl m, .refl m.store, fun _ _ _ bound => .inl bound, fun _ _ _ _ => rfl⟩

theorem trans (first : m.Scoped e m₁) (second : m₁.Scoped e m₂) : m.Scoped e m₂ where
  stack := first.stack.trans second.stack
  store := first.store.trans second.store
  gained f allocated name bound := by
    have later := Nat.lt_of_lt_of_le allocated first.store.frames
    rcases second.gained f later name bound with bound | ⟨statement, inner⟩
    · exact first.gained f allocated name bound
    · exact .inr ⟨statement, by rw [inner, first.stack.env]⟩
  untouched f allocated unused free := by
    have extends_ := first.store.toExtends
    have later := Nat.lt_of_lt_of_le allocated extends_.frames
    rw [second.untouched f later (first.stack.env ▸ unused) (extends_.not_captures allocated free),
      first.untouched f allocated unused free]

theorem widen (kept : m.Scoped .expression m₁) : m.Scoped .statement m₁ where
  stack := kept.stack
  store := kept.store
  gained f allocated name bound := by
    rcases kept.gained f allocated name bound with bound | ⟨⟨⟩, _⟩
    exact .inl bound
  untouched := kept.untouched

/-- A change that leaves the frames alone. -/
theorem of_frame_eq (stack : m.SameStack m₁) (extends_ : m.store.Extends m₁.store)
    (same : ∀ f, f.index < m.store.frames.size → m₁.store.frame f = m.store.frame f) :
    m.Scoped e m₁ where
  stack := stack
  store := .of_frame_eq extends_ same
  gained f allocated name bound := by
    rw [same f allocated] at bound
    exact .inl bound
  untouched f allocated _ _ := same f allocated

/-- The names of the frames that were there are the same as before an expression. -/
theorem contains_eq (kept : m.Scoped .expression m₁) {f : FrameId}
    (allocated : f.index < m.store.frames.size) (name : String) :
    (m₁.store.frame f).contains name = (m.store.frame f).contains name := by
  rw [Bool.eq_iff_iff]
  constructor
  · intro bound
    rcases kept.gained f allocated name bound with bound | ⟨⟨⟩, _⟩
    exact bound
  · exact kept.store.names f name

/-- A variable that is bound stays so. -/
theorem isSome_get? (kept : m.Scoped e m₁) {name : String} (bound : (m.get? name).isSome = true) :
    (m₁.get? name).isSome = true := by
  obtain ⟨f, used, bound⟩ := Environment.isSome_get?_iff.mp bound
  refine Environment.isSome_get?_iff.mpr ⟨f, ?_, kept.store.names f name bound⟩
  rw [kept.stack.env]
  exact used

end Machine.Scoped

/-- A write goes to one frame in use: to one that has the name, or to the innermost if none has. -/
theorem Machine.exists_set_eq (m : Machine) (name : String) (v : Value) :
    ∃ f ∈ m.env.frames, m.set name v = { m with store := m.store.bind f name v } ∧
      ((m.store.frame f).contains name = true ∨ f = m.env.inner ∧ m.get? name = none) := by
  have same := Environment.isSome_owner? m.store m.env name
  unfold Machine.set Environment.set
  cases owner : m.env.owner? m.store name with
  | some f =>
    obtain ⟨used, bound⟩ := Environment.mem_of_owner? owner
    exact ⟨f, used, rfl, .inl bound⟩
  | none =>
    rw [owner] at same
    have unbound : m.get? name = none := by
      rw [← Option.not_isSome_iff_eq_none, Machine.get?, ← same]
      exact Bool.false_ne_true
    exact ⟨m.env.inner, m.env.inner_mem_frames, rfl, .inr ⟨rfl, unbound⟩⟩

/-- So a write binds no name, unless a statement does it to a name that is not bound. -/
theorem Machine.owned_of_target {e : Extent} {m : Machine} {name : String} {f : FrameId}
    (target : (m.store.frame f).contains name = true ∨ f = m.env.inner ∧ m.get? name = none)
    (owned : (m.get? name).isSome = true ∨ e = .statement) :
    (m.store.frame f).contains name = true ∨ e = .statement ∧ f = m.env.inner := by
  rcases target with bound | ⟨inner, unbound⟩
  · exact .inl bound
  · rcases owned with bound | statement
    · rw [unbound] at bound
      cases bound
    · exact .inr ⟨statement, inner⟩

/-- The discipline of scopes. -/
def scopeDiscipline : Discipline where
  holds _ := Machine.WellFormed
  value := Store.Has
  named m name := (m.get? name).isSome = true
  rel := Machine.Scoped
  moment m μ := μ.machine.WellFormed ∧ m.store.Remembers μ.machine.store
  next m after := m.store.Remembers after.store

namespace scopeDiscipline

variable {e : Extent} {m after : Machine}

/-- A change of the store that keeps the frames. -/
theorem stays_of_frame_eq (wf : m.WellFormed) (store : after.store.WellFormed)
    (extends_ : m.store.Extends after.store) (stack : m.SameStack after)
    (same : ∀ f, f.index < m.store.frames.size → after.store.frame f = m.store.frame f) :
    scopeDiscipline.Stays e m after where
  holds := wf.of_extends store extends_ stack.env
  rel := .of_frame_eq stack extends_ same
  next := .of_frame_eq extends_ same

/-- Binding a name in a frame in use, if it is there or the frame is the innermost one. -/
theorem stays_bind {f : FrameId} {name : String} {v : Value} (wf : m.WellFormed)
    (has : m.store.Has v) (used : f ∈ m.env.frames)
    (owned : (m.store.frame f).contains name = true ∨ e = .statement ∧ f = m.env.inner) :
    scopeDiscipline.Stays e m { m with store := m.store.bind f name v } := by
  have allocated := wf.env f used
  refine ⟨wf.bind has f name, ⟨⟨rfl, rfl⟩, .bind allocated name v, ?_, ?_⟩, .bind allocated name v⟩
  · intro g _ other bound
    rcases (Store.contains_frame_bind allocated g name other v).mp bound with bound | ⟨rfl, rfl⟩
    · exact .inl bound
    · exact owned
  · intro g _ unused _
    have other : g ≠ f := fun same => unused (same ▸ used)
    exact Store.frame_bind_of_ne m.store other name v

theorem stays_set {name : String} {v : Value} (wf : m.WellFormed) (has : m.store.Has v)
    (owned : (m.get? name).isSome = true ∨ e = .statement) :
    scopeDiscipline.Stays e m (m.set name v) := by
  obtain ⟨f, used, written, target⟩ := m.exists_set_eq name v
  rw [written]
  exact stays_bind wf has used (Machine.owned_of_target target owned)

theorem frame_push {f : FrameId} (old : f.index < m.store.frames.size) :
    m.push.store.frame f = m.store.frame f :=
  Store.frame_push_of_lt rfl old

theorem remembers_push (m : Machine) : m.store.Remembers m.push.store :=
  .of_frame_eq (.newFrame m.store .empty) fun _ => frame_push

/-- What a scope adds is all in its own frame, which goes with it. -/
theorem scoped_pop (kept : m.push.Scoped .statement after) : m.Scoped .expression after.pop where
  stack := kept.stack.pop
  store := (remembers_push m).trans kept.store
  gained f old name bound := by
    have allocated := Nat.lt_of_lt_of_le old (remembers_push m).frames
    rcases kept.gained f allocated name bound with bound | ⟨-, inner⟩
    · rw [frame_push old] at bound
      exact .inl bound
    · have fresh : f.index = m.store.frames.size := congrArg FrameId.index inner
      exact absurd fresh (Nat.ne_of_lt old)
  untouched f old unused free := by
    have allocated := Nat.lt_of_lt_of_le old (remembers_push m).frames
    have unused' : f ∉ m.push.env.frames := by
      intro used
      rcases List.mem_cons.mp used with rfl | used
      · exact Nat.lt_irrefl _ old
      · exact unused used
    exact (kept.untouched f allocated unused' free).trans (frame_push old)

theorem lawful (setting : Setting) : scopeDiscipline.Lawful setting where
  part _ _ := trivial
  called _ _ := trivial
  refl := .refl
  trans := .trans
  widen := .widen
  narrow wf := wf
  reopen _ _ wf := wf
  value_mono kept has := kept.store.has has
  named_mono kept bound := kept.isSome_get? bound
  moment_of wf kept := ⟨wf, kept.store⟩
  moment_mono kept moment := ⟨moment.1, kept.store.trans moment.2⟩
  plain s v plain := by
    cases v with
    | function d => cases plain
    | closure c => cases plain
    | object o => cases plain
    | _ => trivial
  function _ _ _ _ := trivial
  binding wf found := wf.has_of_get? found
  member wf _ found := wf.store.has_of_getMember found
  named_of_binding _ _ bound := bound
  console wf _ _ := stays_of_frame_eq wf wf.store (.refl _) ⟨rfl, rfl⟩ fun _ _ => rfl
  newObject wf := by
    refine ⟨?_, ?_⟩
    · exact stays_of_frame_eq wf wf.store.newObject (.newObject _) ⟨rfl, rfl⟩ fun _ _ => rfl
    · exact Nat.lt_of_lt_of_eq (Nat.lt_succ_self _) (Array.size_push _).symm
  newClosure {m} wf d _ := by
    refine ⟨?_, ?_⟩
    · refine stays_of_frame_eq wf (wf.newClosure d).store (.newClosure _ _ _) ⟨rfl, rfl⟩ ?_
      exact fun f old => Store.frame_push_of_lt rfl old
    · exact Array.mem_push_self
  setMember wf object has written := by
    refine stays_of_frame_eq wf (wf.store.setMember object has written) (.setMember written)
      ⟨rfl, rfl⟩ ?_
    intro f _
    rw [Store.frame, Store.frame, Store.frames_setMember written]
  set wf has name _ := stays_set wf has (.inr rfl)
  set_named wf has bound := stays_set wf has (.inl bound)
  create {m v} wf has name :=
    stays_bind wf has m.env.inner_mem_frames (.inr ⟨rfl, rfl⟩)
  scope {m} wf := {
    holds := wf.push
    value := fun v has => (remembers_push m).has has
    next := remembers_push m
    moment := fun μ moment => ⟨moment.1, (remembers_push m).trans moment.2⟩
    leaves := fun after wf kept => ⟨wf.pop, scoped_pop kept, .refl _⟩
    store := fun _ => rfl }
  captured {m c} wf has := {
    holds := {
      store := wf.store
      env := by
        intro f used
        rw [List.mem_singleton.mp used]
        exact wf.store.captured c has }
    value := fun v has => has
    next := .refl _
    moment := fun μ moment => moment
    leaves := by
      intro after wf' kept
      refine ⟨wf.of_extends wf'.store kept.store.toExtends rfl, ?_, .refl _⟩
      refine ⟨kept.stack.onEnv, kept.store, ?_, ?_⟩
      · intro f old name bound
        rcases kept.gained f old name bound with bound | ⟨⟨⟩, _⟩
        exact .inl bound
      · intro f old _ free
        have unused : f ∉ [c.captured] := by
          intro used
          exact free ⟨c, has, (List.mem_singleton.mp used).symm⟩
        exact kept.untouched f old unused free
    store := fun _ => rfl }
  counted {m} wf _ d closure := {
    holds := ⟨wf.store, wf.env⟩
    value := fun v has => has
    next := .refl _
    moment := fun μ moment => moment
    leaves := by
      intro after wf' kept
      refine ⟨⟨wf'.store, wf'.env⟩, ?_, .refl _⟩
      exact ⟨kept.stack.leave, kept.store, kept.gained, kept.untouched⟩
    store := fun _ => rfl }

theorem rooted : scopeDiscipline.Rooted Machine.WellFormed fun μ => μ.machine.WellFormed where
  code _ := trivial
  holds wf := wf
  moment _ moment := moment.1
  stays _ wf _ := wf
  fresh wf := ⟨wf.fresh, remembers_push _⟩

end scopeDiscipline

/-! ## Names before and after -/

/-- The frames that were there bind the names that they bound, and every name has the owner that it
had, if any. -/
structure Machine.SameNames (m after : Machine) : Prop where
  names : ∀ f, f.index < m.store.frames.size → ∀ name,
    (after.store.frame f).contains name = (m.store.frame f).contains name
  owner : ∀ name, after.env.owner? after.store name = m.env.owner? m.store name

theorem Machine.SameNames.isSome_get? {m after : Machine} (same : m.SameNames after)
    (name : String) : (after.get? name).isSome = (m.get? name).isSome := by
  rw [Machine.get?, Machine.get?, ← Environment.isSome_owner?, ← Environment.isSome_owner?,
    same.owner]

/-- No evaluation that starts on the machine lets a name out of its scope. -/
structure Machine.KeepsNames (setting : Setting) (m : Machine) : Prop where
  expr : ∀ fuel e, m.SameNames ((Eval.expr setting fuel e).run m).machine
  block : ∀ fuel ss, m.SameNames ((Eval.block setting fuel ss).run m).machine
  stmt : ∀ fuel s, (∀ x value place, s ≠ .assign [x] value place) →
    m.SameNames ((Eval.stmt setting fuel s).run m).machine
  /-- An assignment adds the name that it is to, if no frame in use binds it, and adds it to the
  innermost frame. -/
  assign : ∀ fuel x value place f name, f.index < m.store.frames.size →
    ((((Eval.stmt setting fuel (.assign [x] value place)).run m).machine.store.frame f).contains
        name = true ↔
      (m.store.frame f).contains name = true ∨
        f = m.env.inner ∧ name = x ∧ m.get? x = none ∧
          ∃ flow after, (Eval.stmt setting fuel (.assign [x] value place)).run m = .ok flow after)
  /-- The steps of a call: its arguments, the call up to its write-backs, and these. -/
  writeBack : ∀ callee args this line d closure, m.store.Has callee →
    (∀ o, this = some o → m.store.Has (.object o)) → callee.code? = some (d, closure) →
    ∀ fuel passed m₁, (Eval.pass setting fuel d.name d.params args).run m = .ok passed m₁ →
    ∀ fuel ended m₂,
      (Eval.invocation setting fuel d closure passed this line).run m₁ = .ok ended m₂ →
      (∀ w ∈ ended.2, (m₂.get? w.1).isSome = true) ∧
        m₂.SameNames ((Eval.writeBack ended.2).run m₂).machine

section Results

variable {setting : Setting} {m : Machine}

theorem Machine.Scoped.sameNames {after : Machine} (wf : m.WellFormed)
    (kept : m.Scoped .expression after) : m.SameNames after where
  names f allocated name := kept.contains_eq allocated name
  owner name := by
    rw [kept.stack.env]
    refine List.find?_congr ?_
    intro f used
    exact kept.contains_eq (wf.env f used) name

theorem Machine.contains_set (wf : m.WellFormed) (x : String) (v : Value) (f : FrameId)
    (name : String) :
    ((m.set x v).store.frame f).contains name = true ↔
      (m.store.frame f).contains name = true ∨ f = m.env.inner ∧ name = x ∧ m.get? x = none := by
  obtain ⟨g, used, written, target⟩ := m.exists_set_eq x v
  rw [written, Store.contains_frame_bind (wf.env g used)]
  constructor
  · intro bound
    rcases bound with bound | ⟨rfl, rfl⟩
    · exact .inl bound
    · cases target with
      | inl bound => exact .inl bound
      | inr none => exact .inr ⟨none.1, rfl, none.2⟩
  · intro bound
    rcases bound with bound | ⟨rfl, rfl, unbound⟩
    · exact .inl bound
    · cases target with
      | inl bound =>
        have found : (m.get? name).isSome = true := Environment.isSome_get?_iff.mpr ⟨g, used, bound⟩
        rw [unbound] at found
        cases found
      | inr none => exact .inr ⟨none.1.symm, rfl⟩

theorem sameNames_of_keeps {α : Type} {x : Eval α} {V : Machine → α → Prop} (wf : m.WellFormed)
    (keeps : scopeDiscipline.Keeps .expression m x V) : m.SameNames (x.run m).machine :=
  (keeps wf).ends.rel.sameNames wf

theorem run_stmt_assign (setting : Setting) (fuel : Nat) (m : Machine) (target : List String)
    (value : Expr) (place : Position) :
    (Eval.stmt setting (fuel + 1) (.assign target value place)).run m =
      match (Eval.expr setting fuel value).run (m.record (.executed place.line)) with
      | .ok v after =>
        match (Eval.assign target v place.line).run after with
        | .ok () after => .ok .next after
        | .error s after => .error s after
      | .error s after => .error s after := by
  rw [Eval.stmt]
  change (Eval.expr setting fuel value >>= _).run (m.record (.executed place.line)) = _
  rw [Eval.run_bind]
  cases (Eval.expr setting fuel value).run (m.record (.executed place.line)) with
  | ok v after =>
    change (Eval.assign target v place.line >>= _).run after = _
    rw [Eval.run_bind]
    dsimp only
    cases (Eval.assign target v place.line).run after <;> rfl
  | error s after => rfl

/-- The value of an assignment may run any code, which leaves the names of the frames in use as they
were. -/
theorem scoped_value (wf : m.WellFormed) {fuel line : Nat} {value : Expr} {after : Machine}
    (ended : ((Eval.expr setting fuel value).run (m.record (.executed line))).machine = after) :
    after.WellFormed ∧ m.Scoped .expression after := by
  subst ended
  have lawful := scopeDiscipline.lawful setting
  have logged := (lawful.keeps_record (m := m) (.executed line) trivial wf).ends
  have valued := ((lawful.kept fuel).expr _ value trivial logged.holds).ends
  exact ⟨valued.holds, logged.rel.trans valued.rel⟩

theorem contains_assign (wf : m.WellFormed) (fuel : Nat) (x : String) (value : Expr)
    (place : Position) {f : FrameId} (allocated : f.index < m.store.frames.size) (name : String) :
    (((Eval.stmt setting fuel (.assign [x] value place)).run m).machine.store.frame f).contains
        name = true ↔
      (m.store.frame f).contains name = true ∨
        f = m.env.inner ∧ name = x ∧ m.get? x = none ∧
          ∃ flow after,
            (Eval.stmt setting fuel (.assign [x] value place)).run m = .ok flow after := by
  cases fuel with
  | zero =>
    rw [Eval.stmt, Eval.run_stop]
    constructor
    · exact .inl
    · intro bound
      rcases bound with bound | ⟨-, -, -, _, _, ⟨⟩⟩
      exact bound
  | succ fuel =>
    rw [run_stmt_assign]
    cases ended : (Eval.expr setting fuel value).run (m.record (.executed place.line)) with
    | ok v m₁ =>
      have left : _ = m₁ := congrArg Outcome.machine ended
      obtain ⟨wf₁, kept⟩ := scoped_value wf left
      have same := kept.sameNames wf
      have unbound : m₁.get? x = none ↔ m.get? x = none := by
        rw [← Option.isNone_iff_eq_none, ← Option.isNone_iff_eq_none, ← Option.not_isSome,
          ← Option.not_isSome, same.isSome_get?]
      have inner : m₁.env.inner = m.env.inner := congrArg Environment.inner kept.stack.env
      dsimp only [Eval.assign, Eval.set, Eval.modify, Eval.change, Outcome.machine]
      rw [Machine.contains_set wf₁, same.names f allocated, inner, unbound]
      constructor
      · intro bound
        rcases bound with bound | ⟨inner, named, unbound⟩
        · exact .inl bound
        · exact .inr ⟨inner, named, unbound, .next, m₁.set x v, rfl⟩
      · intro bound
        rcases bound with bound | ⟨inner, named, unbound, -⟩
        · exact .inl bound
        · exact .inr ⟨inner, named, unbound⟩
    | error s m₁ =>
      have left : _ = m₁ := congrArg Outcome.machine ended
      obtain ⟨wf₁, kept⟩ := scoped_value wf left
      dsimp only [Outcome.machine]
      rw [(kept.sameNames wf).names f allocated]
      constructor
      · exact .inl
      · intro bound
        rcases bound with bound | ⟨-, -, -, _, _, ⟨⟩⟩
        exact bound

/-- The arguments of a call leave the names as they are, and the machine has all that the call is
made with. -/
theorem scoped_pass (wf : m.WellFormed) {callee : Value} {d : Definition}
    {closure : Option Closure} (code : callee.code? = some (d, closure))
    (has : m.store.Has callee) {this : Option ObjectId}
    (received : ∀ o, this = some o → m.store.Has (.object o)) {args : List Expr} {fuel : Nat}
    {passed : List Eval.Passed} {m₁ : Machine}
    (evaluated : (Eval.pass setting fuel d.name d.params args).run m = .ok passed m₁) :
    m₁.WellFormed ∧ m.Scoped .expression m₁ ∧ scopeDiscipline.Closed m₁ closure ∧
      (∀ a ∈ passed, scopeDiscipline.Given m₁ a) ∧ scopeDiscipline.Received m₁ this := by
  have kept := (scopeDiscipline.lawful setting).kept fuel
  have passing := (kept.pass m d.name d.params args (.of_all (fun _ => trivial) args) wf).ends
  rw [evaluated] at passing
  have later : m.store.Extends m₁.store := passing.rel.store.toExtends
  refine ⟨passing.holds, passing.rel, ?_, passing.result passed m₁ rfl,
    fun o is => later.has (received o is)⟩
  intro c same
  subst same
  cases callee with
  | closure c' =>
    cases code
    exact later.has has
  | _ => cases code

/-- A call up to its write-backs leaves the names as they are, and what it gives to write back goes
to bound variables. -/
theorem scoped_invocation {m₁ m₂ : Machine} (wf : m₁.WellFormed) {d : Definition}
    {closure : Option Closure} (closed : scopeDiscipline.Closed m₁ closure)
    {passed : List Eval.Passed} (given : ∀ a ∈ passed, scopeDiscipline.Given m₁ a)
    {this : Option ObjectId} (received : scopeDiscipline.Received m₁ this) {line fuel : Nat}
    {ended : Value × List (String × Value)}
    (called : (Eval.invocation setting fuel d closure passed this line).run m₁ = .ok ended m₂) :
    m₂.WellFormed ∧ m₁.Scoped .expression m₂ ∧ scopeDiscipline.Returns m₂ ended.2 := by
  have calling := (((scopeDiscipline.lawful setting).kept fuel).invocation m₁ d closure passed this
    line trivial closed given received wf).ends
  rw [called] at calling
  exact ⟨calling.holds, calling.rel, (calling.result ended m₂ rfl).2⟩

/-- What a call gives to write back goes to bound variables, so that writing it back binds none. -/
theorem sameNames_writeBack (wf : m.WellFormed) {callee : Value} {d : Definition}
    {closure : Option Closure} (code : callee.code? = some (d, closure))
    (has : m.store.Has callee) {this : Option ObjectId}
    (received : ∀ o, this = some o → m.store.Has (.object o)) {args : List Expr} {line : Nat}
    {fuel : Nat} {passed : List Eval.Passed} {m₁ : Machine}
    (evaluated : (Eval.pass setting fuel d.name d.params args).run m = .ok passed m₁)
    {fuel' : Nat} {ended : Value × List (String × Value)} {m₂ : Machine}
    (called : (Eval.invocation setting fuel' d closure passed this line).run m₁ = .ok ended m₂) :
    (∀ w ∈ ended.2, (m₂.get? w.1).isSome = true) ∧
      m₂.SameNames ((Eval.writeBack ended.2).run m₂).machine := by
  obtain ⟨wf₁, -, closed, given, received⟩ := scoped_pass wf code has received evaluated
  obtain ⟨wf₂, -, returns⟩ := scoped_invocation wf₁ closed given received called
  refine ⟨fun w back => (returns w back).2, ?_⟩
  exact sameNames_of_keeps wf₂ ((scopeDiscipline.lawful setting).keeps_writeBack returns)

theorem keepsNames (wf : m.WellFormed) : m.KeepsNames setting := by
  have lawful := scopeDiscipline.lawful setting
  exact {
    expr := fun fuel e => sameNames_of_keeps wf ((lawful.kept fuel).expr m e trivial)
    block := fun fuel ss =>
      sameNames_of_keeps wf ((lawful.kept fuel).block m ss fun _ _ => trivial)
    stmt := fun fuel s quiet =>
      sameNames_of_keeps wf (lawful.kept_stmt_of_ne fuel m s trivial quiet)
    assign := fun fuel x value place _ name allocated =>
      contains_assign wf fuel x value place allocated name
    writeBack := fun _ _ _ _ _ _ has received code _ _ _ evaluated _ _ _ called =>
      sameNames_writeBack wf code has received evaluated called }

theorem Machine.Reachable.wellFormed (reached : m.Reachable setting) : m.WellFormed := by
  obtain ⟨inputs, steps, μ, passed, rfl⟩ := reached
  have lawful := scopeDiscipline.lawful setting
  exact scopeDiscipline.rooted.moments_session lawful steps (.start inputs) μ passed

variable (setting) in
/-- On a machine that some session comes through, no evaluation lets a name out of its scope; and
from each moment of a session to every later one, a name that a frame binds stays bound in it. -/
theorem names_stay_in_scope :
    (∀ m, Machine.Reachable setting m → m.KeepsNames setting) ∧
      ∀ inputs steps, ((session setting steps).history (.start inputs)).Pairwise fun μ ν =>
        ∀ f name, (μ.machine.store.frame f).contains name = true →
          (ν.machine.store.frame f).contains name = true := by
  refine ⟨?_, ?_⟩
  · intro m reached
    exact keepsNames reached.wellFormed
  · intro inputs steps
    have lawful := scopeDiscipline.lawful setting
    have course := scopeDiscipline.rooted.course_session lawful steps (.start inputs)
    exact (course.pairwise .trans).imp fun later => later.names

end Results

end Protoscript

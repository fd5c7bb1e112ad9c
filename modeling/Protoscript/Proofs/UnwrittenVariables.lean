import Protoscript.Proofs.PrototypeChain
import Protoscript.Proofs.Provenance
import Protoscript.Proofs.Scoping

/-! # Variables that are not written

A frame gets a value by an assignment to a single name, by what a call writes back to the variables
that it was passed, and by the parameters of a call; these are bound in a frame of its own.  So if
no tree of a program `Writes` a variable, the frames that are there keep what they hold under its
name.

That the code which runs is that of the program is part of the invariant: a closure or a function
that is called may come from anywhere in the store, and all code in the store comes from the
program (`Store.ComesFrom`). -/

set_option autoImplicit false

namespace Protoscript

variable {ds : List Definition} {functions : FunctionTable}

/-! ## Stores with code of the program -/

theorem Value.ComesFrom.of_isPlain {v : Value} (plain : v.IsPlain) : v.ComesFrom ds functions := by
  cases v with
  | function f => cases plain
  | closure c => cases plain
  | _ => trivial

/-- What runs when the value is called is code of the program. -/
theorem Value.ComesFrom.occurs {v : Value} (comes : v.ComesFrom ds functions) {d : Definition}
    {closure : Option Closure} (code : v.code? = some (d, closure)) :
    (Tree.definition d).Occurs ds := by
  cases v with
  | function f =>
    cases code
    exact .definition (Function.mem_of_mem_ofDefinitions comes.1)
  | closure c =>
    cases code
    exact .part (.lambda c.definition) comes
  | _ => cases code

namespace Bindings.ComesFrom

theorem empty : Bindings.empty.ComesFrom ds functions := by
  intro name v bound
  rw [get?_empty] at bound
  cases bound

theorem insert {b : Bindings} (comes : b.ComesFrom ds functions) {v : Value}
    (value : v.ComesFrom ds functions) (name : String) :
    (b.insert name v).ComesFrom ds functions := by
  intro other w bound
  rw [get?_insert] at bound
  split at bound
  · cases bound
    exact value
  · exact comes other w bound

end Bindings.ComesFrom

/-- What holds of all that an array holds, and passes on to what one place is changed to. -/
theorem forall_mem_modify {α : Type} {xs : Array α} {P : α → Prop} (all : ∀ a ∈ xs, P a) (i : Nat)
    {change : α → α} (kept : ∀ a, P a → P (change a)) : ∀ a ∈ xs.modify i change, P a := by
  intro a among
  obtain ⟨j, found⟩ := Array.mem_iff_getElem?.mp among
  rw [Array.getElem?_modify] at found
  split at found
  · obtain ⟨b, held, rfl⟩ := Option.map_eq_some_iff.mp found
    exact kept b (all b (Array.mem_of_getElem? held))
  · exact all a (Array.mem_of_getElem? found)

namespace Store.ComesFrom

variable {s : Store} (comes : s.ComesFrom ds functions)

include comes

theorem frame (f : FrameId) : (s.frame f).ComesFrom ds functions := by
  by_cases allocated : f.index < s.frames.size
  · exact comes.frames _ (Array.mem_of_getElem? (getElem?_frames allocated))
  · rw [frame_of_size_le (Nat.le_of_not_lt allocated)]
    exact .empty

theorem fields (o : ObjectId) : (s.object o).fields.ComesFrom ds functions := by
  by_cases allocated : o.index < s.objects.size
  · exact comes.objects _ (Array.mem_of_getElem? (getElem?_objects allocated))
  · rw [object_of_size_le (Nat.le_of_not_lt allocated)]
    exact .empty

theorem bind {v : Value} (value : v.ComesFrom ds functions) (f : FrameId) (name : String) :
    (s.bind f name v).ComesFrom ds functions where
  frames := forall_mem_modify comes.frames f.index fun _ old => old.insert value name
  objects := comes.objects
  closures := comes.closures

theorem pushFrame {t : Store} {b : Bindings} (frames : t.frames = s.frames.push b)
    (objects : t.objects = s.objects) (bindings : b.ComesFrom ds functions)
    (closures : ∀ c ∈ t.closures, (Value.closure c).ComesFrom ds functions) :
    t.ComesFrom ds functions where
  frames c among := by
    rw [frames] at among
    rcases Array.mem_push.mp among with among | rfl
    · exact comes.frames c among
    · exact bindings
  objects := objects ▸ comes.objects
  closures := closures

theorem newObject : s.newObject.2.ComesFrom ds functions where
  frames := comes.frames
  objects o among := by
    rcases Array.mem_push.mp among with among | rfl
    · exact comes.objects o among
    · exact .empty
  closures := comes.closures

/-- A change of one object that leaves its fields with code of the program. -/
theorem modifyObject (o : ObjectId) {change : Object → Object}
    (kept : ∀ p : Object, p.fields.ComesFrom ds functions →
      (change p).fields.ComesFrom ds functions) :
    ({ s with objects := s.objects.modify o.index change } : Store).ComesFrom ds functions where
  frames := comes.frames
  objects := forall_mem_modify comes.objects o.index kept
  closures := comes.closures

theorem setMember {t : Store} {o : ObjectId} {name : String} {v : Value}
    (value : v.ComesFrom ds functions) (written : s.setMember o name v = .ok t) :
    t.ComesFrom ds functions := by
  unfold Store.setMember at written
  split at written
  · cases v with
    | object p =>
      cases written
      exact comes.modifyObject o fun _ kept => kept
    | nil =>
      cases written
      exact comes.modifyObject o fun _ kept => kept
    | _ => cases written
  · cases written
    exact comes.modifyObject o fun _ kept => kept.insert value name

theorem getMember {o : ObjectId} {name : String} {v : Value}
    (found : s.getMember o name = some v) : v.ComesFrom ds functions := by
  by_cases proto : name = protoName
  · rw [Store.getMember, if_pos proto] at found
    cases found
    unfold protoValue
    split <;> trivial
  · obtain ⟨n, ⟨p, -, has⟩, -⟩ := (getMember_eq_some_iff proto).mp found
    exact comes.fields p name v has

omit comes

theorem binding {m : Machine} (comes : m.store.ComesFrom ds functions) {name : String} {v : Value}
    (found : m.get? name = some v) : v.ComesFrom ds functions := by
  obtain ⟨f, -, bound⟩ := List.exists_of_findSome?_eq_some found
  exact comes.frame f name v bound

theorem newClosure {m : Machine} (comes : m.store.ComesFrom ds functions) {d : Definition}
    (lambda : (Tree.expr (.lambda d)).Occurs ds) :
    (m.newClosure d).2.store.ComesFrom ds functions := by
  refine comes.pushFrame rfl rfl ?_ ?_
  · intro name v bound
    rw [Environment.get?_flatten] at bound
    exact comes.binding bound
  · intro c made
    rcases Array.mem_push.mp made with made | rfl
    · exact comes.closures c made
    · exact lambda

end Store.ComesFrom

/-! ## Frames that keep a variable -/

theorem Store.get?_frame_bind (s : Store) {f g : FrameId} {x y : String} (v : Value)
    (apart : y ≠ x ∨ g ≠ f) : ((s.bind f y v).frame g).get? x = (s.frame g).get? x := by
  by_cases here : g = f
  · subst here
    have other : y ≠ x := apart.resolve_right fun elsewhere => elsewhere rfl
    by_cases allocated : g.index < s.frames.size
    · rw [frame_bind_self allocated, Bindings.get?_insert, if_neg other.symm]
    · have missing := Nat.le_of_not_lt allocated
      rw [frame_of_size_le missing, frame_of_size_le (s.size_frames_bind g y v ▸ missing)]
  · rw [frame_bind_of_ne s here]

/-- The stack is the same, and the first frames hold the same under the name. -/
structure Machine.KeepsVariable (x : String) (old : Nat) (m after : Machine) : Prop where
  stack : m.SameStack after
  kept : ∀ f, f.index < old → (after.store.frame f).get? x = (m.store.frame f).get? x

/-- All code in the store comes from the program, and what a statement binds goes to none of the
first frames. -/
structure Machine.Apart (ds : List Definition) (functions : FunctionTable) (old : Nat) (e : Extent)
    (m : Machine) : Prop where
  comes : m.store.ComesFrom ds functions
  size : old ≤ m.store.frames.size
  inner : e = .statement → old ≤ m.env.inner.index

/-- The discipline of a program that does not write the variable: the first frames keep it. -/
def unwrittenDiscipline (ds : List Definition) (functions : FunctionTable) (x : String)
    (old : Nat) : Discipline where
  code := Tree.Occurs ds
  holds := Machine.Apart ds functions old
  value _ v := v.ComesFrom ds functions
  named _ y := y ≠ x
  rel _ := Machine.KeepsVariable x old
  moment _ _ := True
  next _ _ := True

namespace unwrittenDiscipline

variable {x : String} {old : Nat} {e : Extent} {m after : Machine}

theorem ne_of_writes (unwritten : ∀ t : Tree, t.Occurs ds → ¬ t.Writes x) {y : String}
    (writes : ∃ t : Tree, t.Occurs ds ∧ t.Writes y) : y ≠ x := by
  intro same
  subst same
  obtain ⟨t, occurs, writes⟩ := writes
  exact unwritten t occurs writes

theorem stays_of_frame (apart : m.Apart ds functions old e) (stack : m.SameStack after)
    (comes : after.store.ComesFrom ds functions)
    (size : m.store.frames.size ≤ after.store.frames.size)
    (kept : ∀ f, f.index < old → (after.store.frame f).get? x = (m.store.frame f).get? x) :
    (unwrittenDiscipline ds functions x old).Stays e m after where
  holds := by
    refine ⟨comes, Nat.le_trans apart.size size, ?_⟩
    rw [stack.env]
    exact apart.inner
  rel := ⟨stack, kept⟩
  next := trivial

/-- Binding another variable, or in a frame that is none of the first. -/
theorem stays_bind (apart : m.Apart ds functions old e) {v : Value}
    (value : v.ComesFrom ds functions) {f : FrameId} {y : String}
    (elsewhere : y ≠ x ∨ old ≤ f.index) :
    (unwrittenDiscipline ds functions x old).Stays e m
      { m with store := m.store.bind f y v } := by
  refine stays_of_frame apart ⟨rfl, rfl⟩ (apart.comes.bind value f y)
    (Nat.le_of_eq (m.store.size_frames_bind f y v).symm) ?_
  intro g first
  refine m.store.get?_frame_bind v (elsewhere.imp_right ?_)
  intro later same
  subst same
  exact Nat.not_lt_of_le later first

theorem stays_set (apart : m.Apart ds functions old e) {v : Value}
    (value : v.ComesFrom ds functions) {y : String} (other : y ≠ x) :
    (unwrittenDiscipline ds functions x old).Stays e m (m.set y v) := by
  obtain ⟨f, -, written, -⟩ := m.exists_set_eq y v
  rw [written]
  exact stays_bind apart value (.inl other)

/-- In a scope, what is bound goes to the frame of the scope, which is new. -/
theorem bracketed_push (apart : m.Apart ds functions old .expression) :
    (unwrittenDiscipline ds functions x old).Bracketed .statement m m.push [] Machine.pop where
  holds := by
    have size : m.push.store.frames.size = m.store.frames.size + 1 := Array.size_push _
    refine ⟨?_, ?_, fun _ => apart.size⟩
    · exact apart.comes.pushFrame rfl rfl .empty apart.comes.closures
    · have size' := apart.size
      omega
  value _ value := value
  next := trivial
  moment _ _ := trivial
  leaves after apart' rel := by
    refine ⟨⟨apart'.comes, apart'.size, nofun⟩, ⟨rel.stack.pop, ?_⟩, trivial⟩
    intro f first
    have pushed : m.push.store.frame f = m.store.frame f :=
      Store.frame_push_of_lt rfl (Nat.lt_of_lt_of_le first apart.size)
    rw [← pushed]
    exact rel.kept f first
  store _ := rfl

theorem lawful (made : FunctionTable.ofDefinitions ds = .ok functions)
    (unwritten : ∀ t : Tree, t.Occurs ds → ¬ t.Writes x) (old : Nat) (maxDepth : Option Nat) :
    (unwrittenDiscipline ds functions x old).Lawful ⟨functions, maxDepth⟩ where
  part part occurs := .part part occurs
  called value code := Value.ComesFrom.occurs value code
  refl _ m := ⟨.refl m, fun _ _ => rfl⟩
  trans first second :=
    ⟨first.stack.trans second.stack,
      fun f among => (second.kept f among).trans (first.kept f among)⟩
  widen rel := rel
  narrow apart := ⟨apart.comes, apart.size, nofun⟩
  reopen := by
    intro m m' apart rel holds
    refine ⟨holds.comes, holds.size, ?_⟩
    rw [rel.stack.env]
    exact apart.inner
  value_mono _ value := value
  named_mono _ named := named
  moment_of _ _ := trivial
  moment_mono _ _ := trivial
  plain _ _ plain := .of_isPlain plain
  function _ _ _ among := FunctionTable.mem_of_mem_overloads made among
  binding apart found := apart.comes.binding found
  member apart _ found := apart.comes.getMember found
  named_of_binding _ writes _ := ne_of_writes unwritten writes
  console apart _ _ :=
    stays_of_frame apart ⟨rfl, rfl⟩ apart.comes (Nat.le_refl _) fun _ _ => rfl
  newObject apart :=
    ⟨stays_of_frame apart ⟨rfl, rfl⟩ apart.comes.newObject (Nat.le_refl _) fun _ _ => rfl, trivial⟩
  newClosure := by
    intro m apart d lambda
    refine ⟨stays_of_frame apart ⟨rfl, rfl⟩ (apart.comes.newClosure lambda) ?_ ?_, lambda⟩
    · exact (Store.Extends.newClosure m.store d (m.env.flatten m.store)).frames
    · intro f first
      have grown : (m.newClosure d).2.store.frame f = m.store.frame f :=
        Store.frame_push_of_lt rfl (Nat.lt_of_lt_of_le first apart.size)
      rw [grown]
  setMember := by
    intro m o name v s apart _ value written
    refine stays_of_frame apart ⟨rfl, rfl⟩ (apart.comes.setMember value written) ?_ ?_
    · exact Nat.le_of_eq (congrArg Array.size (Store.frames_setMember written)).symm
    · intro f _
      rw [Store.frame, Store.frame, Store.frames_setMember written]
  set apart value _ writes := stays_set apart value (ne_of_writes unwritten writes)
  set_named apart value other := stays_set apart value other
  create apart value _ := stays_bind apart value (.inr (apart.inner rfl))
  scope apart := bracketed_push apart
  captured apart _ := {
    holds := ⟨apart.comes, apart.size, nofun⟩
    value := fun _ value => value
    next := trivial
    moment := fun _ _ => trivial
    leaves := fun after apart' rel =>
      ⟨⟨apart'.comes, apart'.size, nofun⟩, ⟨rel.stack.onEnv, rel.kept⟩, trivial⟩
    store := fun _ => rfl }
  counted apart _ _ _ := {
    holds := ⟨apart.comes, apart.size, nofun⟩
    value := fun _ value => value
    next := trivial
    moment := fun _ _ => trivial
    leaves := fun after apart' rel =>
      ⟨⟨apart'.comes, apart'.size, nofun⟩, ⟨rel.stack.leave, rel.kept⟩, trivial⟩
    store := fun _ => rfl }

end unwrittenDiscipline

section Results

variable {x : String}

/-- Also a statement at the top, which may bind a name in a frame that is there, binds another one
than the variable. -/
theorem keeps_stmt_of_unwritten (made : FunctionTable.ofDefinitions ds = .ok functions)
    (unwritten : ∀ t : Tree, t.Occurs ds → ¬ t.Writes x) (old fuel : Nat) (maxDepth : Option Nat)
    (m : Machine) {s : Stmt} (occurs : (Tree.stmt s).Occurs ds) :
    (unwrittenDiscipline ds functions x old).Keeps .expression m
      (Eval.stmt ⟨functions, maxDepth⟩ fuel s) fun _ _ => True := by
  have L := unwrittenDiscipline.lawful made unwritten old maxDepth
  by_cases single : ∃ y value place, s = .assign [y] value place
  · obtain ⟨y, value, place, rfl⟩ := single
    have other : y ≠ x := unwrittenDiscipline.ne_of_writes unwritten ⟨_, occurs, rfl⟩
    cases fuel with
    | zero =>
      rw [Eval.stmt]
      exact L.keeps_stop
    | succ fuel =>
      rw [Eval.stmt]
      apply L.keeps_bind (L.keeps_record (.executed _) trivial)
      intro _ m₁ _ _ _
      apply L.keeps_bind ((L.kept fuel).expr m₁ value (.part (.assigned [y] value place) occurs))
      intro v m₂ _ _ comes
      apply L.keeps_bind (L.keeps_set_named comes other)
      intro _ m₃ _ _ _
      exact L.keeps_pure fun _ => trivial
  · refine (L.kept_stmt_of_ne fuel m s occurs ?_).imp fun _ _ _ _ => trivial
    intro y value place same
    exact single ⟨y, value, place, same⟩

/-- If no statement of a program assigns to the variable and none of its calls passes it on, then
executing any of its statements or expressions, in any moment of a run of it, leaves all frames that
are there with the value that they hold for the variable, captured frames among them. -/
theorem unwritten_variables_unchanged {p : Program} (made : Program.ofDefinitions ds = .ok p)
    (unwritten : ∀ t : Tree, t.Occurs ds → ¬ t.Writes x) (maxDepth : Option Nat)
    (inputs : List String) (fuel : Nat) :
    ∀ μ ∈ (Eval.main (p.setting maxDepth) fuel).history (.start inputs),
      ∀ f, f.index < μ.machine.store.frames.size →
        (∀ e, (Tree.expr e).Occurs ds → ∀ more,
          (((Eval.expr (p.setting maxDepth) more e).run μ.machine).machine.store.frame f).get? x =
            (μ.machine.store.frame f).get? x) ∧
        ∀ s, (Tree.stmt s).Occurs ds → ∀ more,
          (((Eval.stmt (p.setting maxDepth) more s).run μ.machine).machine.store.frame f).get? x =
            (μ.machine.store.frame f).get? x := by
  intro μ passed f allocated
  have made' := Program.ofDefinitions_functions made
  have comes := comesFrom_of_mem_history made maxDepth passed
  have apart : μ.machine.Apart ds p.functions μ.machine.store.frames.size .expression :=
    ⟨comes, Nat.le_refl _, nofun⟩
  refine ⟨?_, ?_⟩
  · intro e occurs more
    have lawful := unwrittenDiscipline.lawful made' unwritten μ.machine.store.frames.size maxDepth
    exact (((lawful.kept more).expr μ.machine e occurs) apart).ends.rel.kept f allocated
  · intro s occurs more
    have keeps := keeps_stmt_of_unwritten made' unwritten μ.machine.store.frames.size more maxDepth
      μ.machine occurs
    exact (keeps apart).ends.rel.kept f allocated

/-- A function reads its parameter, and `main` calls it. -/
def Definition.reading : List Definition :=
  [⟨"keep", [⟨"x", false, ⟨1, 11⟩⟩], [.assign ["y"] (.var "x" ⟨2, 7⟩) ⟨2, 3⟩], ⟨1, 1⟩⟩,
    ⟨"main", [], [.call (.call "keep" [.int 7 ⟨5, 8⟩] ⟨5, 3⟩)], ⟨4, 1⟩⟩]

theorem not_writes_of_reading (t : Tree) (occurs : t.Occurs Definition.reading) :
    ¬ t.Writes "x" := by
  let Listed (t : Tree) : Prop := (∃ d ∈ Definition.reading, t = .definition d) ∨
    t = .stmt (.assign ["y"] (.var "x" ⟨2, 7⟩) ⟨2, 3⟩) ∨ t = .expr (.var "x" ⟨2, 7⟩) ∨
    t = .stmt (.call (.call "keep" [.int 7 ⟨5, 8⟩] ⟨5, 3⟩)) ∨
    t = .expr (.call "keep" [.int 7 ⟨5, 8⟩] ⟨5, 3⟩) ∨ t = .expr (.int 7 ⟨5, 8⟩)
  have part : ∀ t u : Tree, t.PartOf u → Listed u → Listed t := by
    rintro t u part (⟨d, among, rfl⟩ | rfl | rfl | rfl | rfl | rfl)
    · rcases List.mem_cons.mp among with rfl | among
      · cases part with
        | body within => exact .inr (.inl (congrArg Tree.stmt (List.mem_singleton.mp within)))
      · rw [List.mem_singleton.mp among] at part
        cases part with
        | body within =>
          exact .inr (.inr (.inr (.inl (congrArg Tree.stmt (List.mem_singleton.mp within)))))
    · cases part
      exact .inr (.inr (.inl rfl))
    · cases part
    · cases part
      exact .inr (.inr (.inr (.inr (.inl rfl))))
    · cases part with
      | argument among =>
        exact .inr (.inr (.inr (.inr (.inr (congrArg Tree.expr (List.mem_singleton.mp among))))))
    · cases part
  have listed : Listed t := occurs.of_parts (fun d among => .inl ⟨d, among, rfl⟩) part
  rcases listed with ⟨d, -, rfl⟩ | rfl | rfl | rfl | rfl | rfl
  · exact id
  · intro writes
    exact absurd (List.cons.inj writes).1 (by decide)
  · exact id
  · exact id
  · rintro ⟨p, among⟩
    cases List.mem_singleton.mp among
  · exact id

/-- After the run, calling the function once more leaves the parameter of the first call alone. -/
theorem unwritten_variables_unchanged_of_reading :
    let p : Program := ⟨(FunctionTable.collected Definition.reading).1⟩
    let m := ((Eval.main (p.setting none) 20).run (.start [])).machine
    (Program.ofDefinitions Definition.reading = .ok p ∧
      ∀ t : Tree, t.Occurs Definition.reading → ¬ t.Writes "x") ∧
      (((Eval.stmt (p.setting none) 20
        (.call (.call "keep" [.int 7 ⟨5, 8⟩] ⟨5, 3⟩))).run m).machine.store.frame ⟨3⟩).get? "x" =
          some (.int 7) := by
  intro p m
  have made : Program.ofDefinitions Definition.reading = .ok p := rfl
  have bound : (m.store.frame ⟨3⟩).get? "x" = some (.int 7) := by with_unfolding_all rfl
  have allocated : 3 < m.store.frames.size :=
    Store.allocated_of_contains (congrArg Option.isSome bound)
  have occurs : (Tree.stmt (.call (.call "keep" [.int 7 ⟨5, 8⟩] ⟨5, 3⟩))).Occurs
      Definition.reading :=
    .part (.body (List.mem_singleton_self _)) (.definition (List.mem_cons_of_mem _
      (List.mem_singleton_self _)))
  have unchanged := unwritten_variables_unchanged made not_writes_of_reading none [] 20 (.of m)
    (Eval.run_mem_history _ _) ⟨3⟩ allocated
  exact ⟨⟨made, not_writes_of_reading⟩, (unchanged.2 _ occurs 20).trans bound⟩

end Results

end Protoscript

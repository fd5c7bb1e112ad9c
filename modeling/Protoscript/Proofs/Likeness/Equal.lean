import Protoscript.Proofs.Likeness.Evaluation

/-! # Likenesses of one program

The same program stands on both sides.  `renamed` lets the two evaluations number what they allocate
each in its own way; `equal` relates all things to themselves, and nothing else.  The left
evaluation may be given other limits than the right one, on fuel and on calls, and be cut short by
them.

All that holds of two evaluations holds of one of them beside itself; so a console only grows in
the course of an evaluation, and each console of its history comes before the last:
`before_of_matches`. -/

set_option autoImplicit false

namespace Protoscript

namespace Likeness

/-! ## Things beside themselves -/

section Self

variable {L : Likeness}

theorem sameBindings_self {b : Bindings}
    (values : ∀ name v, b.get? name = some v → L.SameValue v v) : L.SameBindings b b := by
  intro name
  cases found : b.get? name with
  | none => exact .none
  | some v => exact .some (values name v found)

variable (ids : L.ids = .equal)

include ids

theorem sameFrame_self (f : FrameId) : L.ids.SameFrame f f := by
  rw [ids]
  exact Renaming.sameFrame_equal_iff.mpr rfl

theorem sameObject_self (o : ObjectId) : L.ids.SameObject o o := by
  rw [ids]
  exact Renaming.sameObject_equal_iff.mpr rfl

theorem sameClosure_self {c : Closure} (known : L.code.lambda c.definition c.definition)
    (same : L.code.SameDefinition c.definition c.definition) : L.SameClosure c c where
  id := by
    rw [ids]
    exact Numbering.pairs_equal_iff.mpr rfl
  captured := sameFrame_self ids _
  known := known
  same := same

theorem sameContents_self {o : Object} (fields : L.SameBindings o.fields o.fields) :
    L.SameContents o o where
  fields := fields
  proto := by
    cases o.proto with
    | none => exact .none
    | some p => exact .some (sameObject_self ids p)

theorem sameStore_self {s : Store} (frames : ∀ b ∈ s.frames, L.SameBindings b b)
    (objects : ∀ o ∈ s.objects, L.SameBindings o.fields o.fields)
    (closures : ∀ c ∈ s.closures, L.SameClosure c c) : L.SameStore s s where
  frames := by
    rw [ids]
    exact .self frames
  objects := by
    rw [ids]
    exact .self fun o among => sameContents_self ids (objects o among)
  closures := by
    rw [ids]
    exact .self closures

theorem sameMachine_self {m : Machine} (store : L.SameStore m.store m.store)
    (console : L.console m.console m.console) : L.SameMachine m m where
  store := store
  env := List.forall₂_same.mpr fun f _ => sameFrame_self ids f
  depth := rfl
  console := console

/-- Nothing is allocated yet, but for one frame without variables. -/
theorem sameMachine_start {inputs inputs' : List String}
    (consoles : L.console (.ofInputs inputs) (.ofInputs inputs')) :
    L.SameMachine (.start inputs) (.start inputs') where
  store := by
    have empty : L.SameStore .empty .empty := sameStore_self ids nofun nofun nofun
    exact empty.newFrame .empty
  env := .cons (sameFrame_self ids _) .nil
  depth := rfl
  console := consoles

end Self

/-! ## One program on both sides -/

/-- All is the same but for the numbers of what is allocated. -/
def renamed (ρ : Renaming) (cut : Stop → Prop) : Likeness where
  code := .equal
  function := Eq
  function_id := Function.id_eq_iff_of_eq
  ids := ρ
  console := Eq
  cut s c d := cut s ∧ c = d

def equal (cut : Stop → Prop) : Likeness := renamed .equal cut

variable {ρ : Renaming} {cut : Stop → Prop}

theorem sameFunction_renamed (f : Function) : (renamed ρ cut).SameFunction f f :=
  ⟨rfl, Code.sameDefinition_equal f.toDefinition⟩

theorem sameClosure_equal (c : Closure) : (equal cut).SameClosure c c :=
  sameClosure_self rfl rfl (Code.sameDefinition_equal c.definition)

theorem sameValue_equal (v : Value) : (equal cut).SameValue v v := by
  cases v with
  | function f => exact .function (sameFunction_renamed f)
  | closure c => exact .closure (sameClosure_equal c)
  | object o => exact .object (sameObject_self rfl o)
  | _ => exact .plain trivial

theorem sameBindings_equal (b : Bindings) : (equal cut).SameBindings b b :=
  sameBindings_self fun _ v _ => sameValue_equal v

theorem sameMachine_equal (m : Machine) : (equal cut).SameMachine m m := by
  refine sameMachine_self rfl (sameStore_self rfl ?_ ?_ ?_) rfl
  · exact fun b _ => sameBindings_equal b
  · exact fun o _ => sameBindings_equal o.fields
  · exact fun c _ => sameClosure_equal c

theorem parallel_renamed : Builtin.Parallel (renamed ρ cut).console where
  print := by
    rintro c _ rfl text
    rfl
  readLine := by
    rintro c _ rfl
    exact ⟨rfl, rfl⟩

theorem lawful_renamed {functions : FunctionTable} {low high : Option Nat}
    (reached : ∀ depth, (Setting.mk functions low).reached? depth =
        (Setting.mk functions high).reached? depth ∨
      ∃ limit, (Setting.mk functions low).reached? depth = some limit ∧
        ∀ name line, cut (.error ⟨.tooDeep limit name, line⟩)) :
    (renamed ρ cut).Lawful ⟨functions, low⟩ ⟨functions, high⟩ where
  tables := .self fun _ f _ => sameFunction_renamed f
  main := SameTable.self_get? (fun _ f _ => sameFunction_renamed f) "main" 0
  reached depth := (reached depth).imp_right fun ⟨limit, left, stops⟩ =>
    ⟨limit, left, fun name line _ _ same => ⟨stops name line, same⟩⟩
  record := by
    rintro c _ rfl e e' events
    cases events with
    | same => rfl
    | executed lines => exact congrArg (fun line => c.record (.executed line)) lines
  started := by
    rintro c _ rfl
    rfl
  interact name values _ _ lines := .interact parallel_renamed name values lines

/-! ## One evaluation -/

/-- A likeness by which nothing is cut short, and everything is itself. -/
abbrev itself : Likeness := equal fun _ => False

theorem lawful_itself (setting : Setting) : itself.Lawful setting setting :=
  lawful_renamed fun _ => .inl rfl

theorem before_of_matches {α : Type} {x : Eval α} {V : α → α → Prop} (self : itself.Matches x x V)
    (m : Machine) : ∀ μ ∈ x.history m, μ.machine.console.Before (x.run m).machine.console := by
  intro μ passed
  have course := self m m (sameMachine_equal m)
  have pairwise := course.pairwise fun first second => first.trans second
  obtain ⟨g, split⟩ := x.exists_history_eq m
  rw [split] at pairwise passed
  rcases List.mem_append.mp passed with passed | passed
  · exact (List.pairwise_append.mp pairwise).2.2 μ passed _ (List.mem_singleton_self _)
  · rw [List.mem_singleton.mp passed]
    exact .refl _

end Likeness

end Protoscript

import Protoscript.Proofs.Provenance

/-! # The order of definitions, and unused ones

A table keeps nothing of the order in which its definitions came but the identities of its
functions, and these are told apart alike in any order; so a program means the same in whatever
order its definitions are written.  A definition that no variable and no call of the program names
is never looked up: a run with it is the run without it, but for the number of functions that the
log reports when a run begins.

For both, two programs are compared by a likeness that relates the code of the first one to itself,
and its functions to those of the second one with the same definitions (`reordered`).  Under all
names that are looked up in that code both tables have the same definitions. -/

set_option autoImplicit false

namespace Protoscript

/-- The two tables answer every question alike, with functions of the same definitions that are told
apart alike. -/
structure FunctionTable.AnswersAs (t u : FunctionTable) : Prop where
  get? : ∀ name arity,
    (t.get? name arity).map Function.toDefinition = (u.get? name arity).map Function.toDefinition
  overloads : ∀ name,
    (t.overloads name).map Function.toDefinition = (u.overloads name).map Function.toDefinition
  contains : ∀ name, t.contains name = u.contains name
  size : t.size = u.size
  isEmpty : t.isEmpty = u.isEmpty
  identities : ∀ {name arity name' arity' f f' g g'},
    t.get? name arity = some f → u.get? name arity = some f' →
    t.get? name' arity' = some g → u.get? name' arity' = some g' → (f.id = g.id ↔ f'.id = g'.id)

/-- The same event, but that a run may begin of a program with one function more. -/
inductive Event.SameButCount : Event → Event → Prop
  | same (e : Event) : SameButCount e e
  | started (functions : Nat) : SameButCount (.started functions) (.started (functions + 1))

namespace Console

/-- The same lines wait, and the same happened but for the count of functions. -/
structure SameButCount (c d : Console) : Prop where
  inputs : c.inputs = d.inputs
  latest : List.Forall₂ Event.SameButCount c.latest d.latest

namespace SameButCount

variable {c d : Console}

theorem self (c : Console) : c.SameButCount c :=
  ⟨rfl, List.forall₂_same.mpr fun e _ => .same e⟩

theorem record (same : c.SameButCount d) {e e' : Event} (events : e.SameButCount e') :
    (c.record e).SameButCount (d.record e') :=
  ⟨same.inputs, .cons events same.latest⟩

theorem log (same : c.SameButCount d) : List.Forall₂ Event.SameButCount c.log d.log :=
  List.rel_reverse same.latest

theorem output_eq (same : c.SameButCount d) : c.output = d.output := by
  have printed : ∀ {es es' : List Event}, List.Forall₂ Event.SameButCount es es' →
      es.filterMap Event.printed? = es'.filterMap Event.printed? := by
    intro es es' related
    induction related with
    | nil => rfl
    | cons head _ ih =>
      cases head with
      | same e => rw [List.filterMap_cons, List.filterMap_cons, ih]
      | started n => exact ih
  exact printed same.log

end SameButCount

theorem parallel_sameButCount : Builtin.Parallel SameButCount where
  print same text := same.record (.same (.printed text))
  readLine := by
    rintro ⟨inputs, latest⟩ ⟨inputs', latest'⟩ same
    obtain rfl : inputs = inputs' := same.inputs
    cases inputs with
    | nil => exact ⟨rfl, same.record (.same (.asked none))⟩
    | cons line rest => exact ⟨rfl, rfl, .cons (.same (.asked (some line))) same.latest⟩

end Console

/-- The same ending, the same unread lines and output, and the same log but for the count of
functions. -/
structure Run.SameButCount (r r' : Run) : Prop where
  ending : r.ending = r'.ending
  inputs : r.console.inputs = r'.console.inputs
  log : List.Forall₂ Event.SameButCount r.console.log r'.console.log
  output : r.console.output = r'.console.output

/-! ## Tables of the same definitions -/

namespace FunctionTable.Holds

variable {ds es : List Definition} {t u : FunctionTable} {f : Function} {name : String}
  {arity : Nat}

theorem comesFrom (holds : t.Holds (Function.ofDefinitions ds))
    (found : t.get? name arity = some f) : f.ComesFrom ds t := by
  obtain ⟨among, signed⟩ := (holds.get?_iff _ _ _).mp found
  obtain ⟨rfl, rfl⟩ := Prod.mk.inj signed
  exact ⟨among, found⟩

theorem exists_get? (holds : t.Holds (Function.ofDefinitions ds)) {d : Definition} (given : d ∈ ds)
    (signed : d.signature = (name, arity)) :
    ∃ f, t.get? name arity = some f ∧ f.toDefinition = d := by
  obtain ⟨f, among, rfl⟩ := Function.exists_mem_ofDefinitions given
  exact ⟨f, (holds.get?_iff _ _ _).mpr ⟨among, signed⟩, rfl⟩

theorem mem_of_get? (holds : t.Holds (Function.ofDefinitions ds))
    (found : t.get? name arity = some f) :
    f.toDefinition ∈ ds ∧ f.signature = (name, arity) :=
  ((holds.get?_iff _ _ _).mp found).imp_left Function.mem_of_mem_ofDefinitions

/-- Under a signature that the same definitions have, both tables have the same definition. -/
theorem rel_get? (holds : t.Holds (Function.ofDefinitions ds))
    (holds' : u.Holds (Function.ofDefinitions es))
    (same : ∀ d : Definition, d.signature = (name, arity) → (d ∈ ds ↔ d ∈ es)) :
    Option.Rel (fun f g => f.toDefinition = g.toDefinition) (t.get? name arity)
      (u.get? name arity) := by
  cases found : t.get? name arity with
  | some f =>
    obtain ⟨given, signed⟩ := holds.mem_of_get? found
    obtain ⟨g, found', equal⟩ := holds'.exists_get? ((same _ signed).mp given) signed
    rw [found']
    exact .some equal.symm
  | none =>
    cases found' : u.get? name arity with
    | none => exact .none
    | some g =>
      obtain ⟨given, signed⟩ := holds'.mem_of_get? found'
      obtain ⟨f, found', -⟩ := holds.exists_get? ((same _ signed).mpr given) signed
      rw [found] at found'
      cases found'

theorem contains_eq (holds : t.Holds (Function.ofDefinitions ds))
    (holds' : u.Holds (Function.ofDefinitions es))
    (same : ∀ d : Definition, d.name = name → (d ∈ ds ↔ d ∈ es)) :
    t.contains name = u.contains name := by
  have named : ∀ ds, (∃ f ∈ Function.ofDefinitions ds, f.name = name) ↔
      ∃ d ∈ ds, d.name = name := by
    intro ds
    constructor
    · exact fun ⟨f, among, here⟩ => ⟨_, Function.mem_of_mem_ofDefinitions among, here⟩
    · rintro ⟨d, given, here⟩
      obtain ⟨f, among, rfl⟩ := Function.exists_mem_ofDefinitions given
      exact ⟨f, among, here⟩
  rw [Bool.eq_iff_iff, holds.contains_iff, holds'.contains_iff, named, named]
  exact exists_congr fun d => and_congr_left fun here => same d here

theorem size_eq_of_perm (holds : t.Holds (Function.ofDefinitions ds))
    (holds' : u.Holds (Function.ofDefinitions es)) (perm : es.Perm ds) : t.size = u.size := by
  rw [holds.size, holds'.size, Function.length_ofDefinitions, Function.length_ofDefinitions,
    perm.length_eq]

theorem size_eq_of_perm_cons (holds : t.Holds (Function.ofDefinitions ds))
    (holds' : u.Holds (Function.ofDefinitions es)) {d : Definition} (perm : es.Perm (d :: ds)) :
    u.size = t.size + 1 := by
  rw [holds.size, holds'.size, Function.length_ofDefinitions, Function.length_ofDefinitions,
    perm.length_eq, List.length_cons]

theorem answersAs (holds : t.Holds (Function.ofDefinitions ds))
    (holds' : u.Holds (Function.ofDefinitions es)) (perm : es.Perm ds) : u.AnswersAs t := by
  have found : ∀ name arity, Option.Rel (fun g f => g.toDefinition = f.toDefinition)
      (u.get? name arity) (t.get? name arity) :=
    fun name arity => holds'.rel_get? holds fun d _ => perm.mem_iff
  have contains : ∀ name, u.contains name = t.contains name :=
    fun name => holds'.contains_eq holds fun d _ => perm.mem_iff
  refine ⟨?_, ?_, contains, (holds.size_eq_of_perm holds' perm).symm, ?_, ?_⟩
  · intro name arity
    have related := found name arity
    generalize t.get? name arity = f, u.get? name arity = g at related ⊢
    cases related with
    | none => rfl
    | some equal => exact congrArg some equal
  · intro name
    have related := FunctionTable.forall₂_overloads (found name)
    rw [← List.forall₂_eq_eq_eq, List.forall₂_map_left_iff, List.forall₂_map_right_iff]
    exact related
  · rw [Bool.eq_iff_iff, isEmpty_iff, isEmpty_iff]
    simp only [contains]
  · intro name arity name' arity' f f' g g' left left' right right'
    have same : ∀ {name arity f f'}, u.get? name arity = some f → t.get? name arity = some f' →
        f.toDefinition = f'.toDefinition := by
      intro name arity f f' left left'
      have related := found name arity
      rw [left, left'] at related
      cases related with
      | some equal => exact equal
    rw [(holds'.comesFrom left).id_eq_iff (holds'.comesFrom right),
      (holds.comesFrom left').id_eq_iff (holds.comesFrom right'), same left left',
      same right right']

end FunctionTable.Holds

/-! ## Likenesses of a program and another one with its definitions -/

namespace Likeness

variable (ds es : List Definition) (t u : FunctionTable) (console : Console → Console → Prop)

/-- The code of the one program is like itself, and its functions are like those of the other that
have the same definition. -/
def reordered : Likeness :=
  { within ds t with
    function := fun f g =>
      f.toDefinition = g.toDefinition ∧ f.ComesFrom ds t ∧ g.ComesFrom es u
    function_id := by
      rintro f f' g g' ⟨same, left, left'⟩ ⟨same', right, right'⟩
      rw [left.id_eq_iff right, left'.id_eq_iff right', same, same']
    console := console }

variable {ds es t u console}

theorem line_eq_of_within {i j : Nat} (related : (withinCode ds t).line i j) : i = j := related.1

variable (holds : t.Holds (Function.ofDefinitions ds))
  (holds' : u.Holds (Function.ofDefinitions es))

include holds holds'

theorem rel_get?_reordered {name : String} {arity : Nat}
    (same : ∀ d : Definition, d.signature = (name, arity) → (d ∈ ds ↔ d ∈ es)) :
    Option.Rel (reordered ds es t u console).SameFunction (t.get? name arity)
      (u.get? name arity) := by
  have related := holds.rel_get? holds' same
  generalize found : t.get? name arity = f, found' : u.get? name arity = g at related ⊢
  cases related with
  | none => exact .none
  | @some f g equal =>
    have comes := holds.comesFrom found
    refine .some ⟨⟨equal, comes, holds'.comesFrom found'⟩, ?_⟩
    rw [← equal]
    exact (sameFunction_within comes).same

/-- The same definitions in another order. -/
theorem lawful_reordered (perm : es.Perm ds) (maxDepth : Option Nat) :
    (reordered ds es t u ((withinCode ds t).SameConsole [] [])).Lawful ⟨t, maxDepth⟩
      ⟨u, maxDepth⟩ := by
  have found : ∀ name arity, Option.Rel
      (reordered ds es t u ((withinCode ds t).SameConsole [] [])).SameFunction (t.get? name arity)
      (u.get? name arity) :=
    fun name arity => rel_get?_reordered holds holds' fun d _ => perm.mem_iff.symm
  have contains : ∀ name, t.contains name = u.contains name :=
    fun name => holds.contains_eq holds' fun d _ => perm.mem_iff.symm
  exact lawful_of_sameConsole rfl (.of_get? (fun _ => found _) fun _ => contains _)
    (found "main" 0) (holds.size_eq_of_perm holds' perm) maxDepth

/-- A longer program, whose further definition no name of the shorter one stands for. -/
theorem lawful_reorderedButCount {d : Definition} (perm : es.Perm (d :: ds))
    (notMain : d.signature ≠ ("main", 0))
    (unused : ¬ ∃ t : Tree, t.Occurs ds ∧ t.LooksUp d.name) (maxDepth : Option Nat) :
    (reordered ds es t u Console.SameButCount).Lawful ⟨t, maxDepth⟩ ⟨u, maxDepth⟩ := by
  have elsewhere : ∀ e : Definition, e ≠ d → (e ∈ ds ↔ e ∈ es) := by
    intro e other
    rw [perm.mem_iff, List.mem_cons, or_iff_right other]
  have signedElsewhere : ∀ {name arity}, d.signature ≠ (name, arity) →
      Option.Rel (reordered ds es t u Console.SameButCount).SameFunction (t.get? name arity)
        (u.get? name arity) := by
    intro name arity apart
    refine rel_get?_reordered holds holds' fun e signed => elsewhere e ?_
    rintro rfl
    exact apart signed
  have other : ∀ {name}, (withinCode ds t).name name → d.name ≠ name := by
    rintro name looked rfl
    exact unused looked
  have size : u.size = t.size + 1 := holds.size_eq_of_perm_cons holds' perm
  refine ⟨.of_get? ?_ ?_, signedElsewhere notMain, fun _ => .inl rfl, ?_, ?_, ?_⟩
  · intro name looked arity
    exact signedElsewhere fun same => other looked (congrArg Prod.fst same)
  · intro name looked
    refine holds.contains_eq holds' fun e here => elsewhere e ?_
    rintro rfl
    exact other looked here
  · intro c c' same e e' events
    cases events with
    | same e => exact same.record (.same e)
    | executed lines => exact lines.1 ▸ same.record (.same _)
  · intro c c' same
    dsimp only
    rw [size]
    exact same.record (.started t.size)
  · intro name values line line' lines
    exact .interact Console.parallel_sameButCount name values lines

end Likeness

open Likeness

variable {ds es : List Definition}

theorem Program.exists_ofDefinitions_eq_ok (distinct : (ds.map Definition.signature).Nodup) :
    ∃ p, Program.ofDefinitions ds = .ok p ∧ p.functions.Holds (Function.ofDefinitions ds) := by
  obtain ⟨t, made, holds⟩ := FunctionTable.exists_ofDefinitions_eq_ok distinct
  refine ⟨⟨t⟩, ?_, holds⟩
  rw [Program.ofDefinitions, made]
  rfl

theorem run_reordered {p q : Program} {console : Console → Console → Prop} {maxDepth : Option Nat}
    (lawful : (reordered ds es p.functions q.functions console).Lawful (p.setting maxDepth)
      (q.setting maxDepth)) (inputs : List String) (fuel : Nat)
    (start : console (.ofInputs inputs) (.ofInputs inputs)) :
    (p.run maxDepth inputs fuel).ending = (q.run maxDepth inputs fuel).ending ∧
      console (p.run maxDepth inputs fuel).console (q.run maxDepth inputs fuel).console := by
  have missing : p.functions.get? "main" 0 = none →
      (reordered ds es p.functions q.functions console).code.line 0 0 :=
    fun missing => ⟨rfl, .inr ⟨missing, rfl⟩⟩
  have same : (reordered ds es p.functions q.functions console).SameRun
      (p.run maxDepth inputs fuel) (q.run maxDepth inputs fuel) :=
    sameRun lawful (.inl rfl) missing (sameMachine_start rfl start)
  cases same with
  | same endings consoles => exact ⟨endings.eq line_eq_of_within, consoles⟩
  | cut _ cut => exact cut.elim

section Runs

variable {p q : Program} (holds : p.functions.Holds (Function.ofDefinitions ds))
  (holds' : q.functions.Holds (Function.ofDefinitions es)) (maxDepth : Option Nat)
  (inputs : List String) (fuel : Nat)

include holds holds'

/-- Permuted definitions run the same. -/
theorem run_of_perm (perm : es.Perm ds) :
    q.run maxDepth inputs fuel = p.run maxDepth inputs fuel := by
  obtain ⟨ending, consoles⟩ :=
    run_reordered (lawful_reordered holds holds' perm maxDepth) inputs fuel (.self _)
  have console := Code.SameConsole.eq line_eq_of_within consoles
  exact congrArg₂ Run.mk ending.symm console.symm

/-- A run of a program, and one of the program with a further definition that nothing names. -/
theorem run_of_unused {d : Definition} (perm : es.Perm (d :: ds))
    (notMain : d.signature ≠ ("main", 0))
    (unused : ¬ ∃ t : Tree, t.Occurs ds ∧ t.LooksUp d.name) :
    (p.run maxDepth inputs fuel).SameButCount (q.run maxDepth inputs fuel) := by
  obtain ⟨ending, consoles⟩ :=
    run_reordered (lawful_reorderedButCount holds holds' perm notMain unused maxDepth)
      inputs fuel (.self _)
  exact ⟨ending, consoles.inputs, consoles.log, consoles.output_eq⟩

end Runs

/-- The order of definitions does not matter, nor do unused ones.  Definitions with distinct
signatures make a program in any order, and always one that answers the same and runs the same.  So
do they with a further one whose signature is fresh and not that of `main` without parameters, and
whose name is that of no variable and of no call in the program; then all that changes in a run is
the number of functions that its log reports. -/
theorem definitions_in_any_order (distinct : (ds.map Definition.signature).Nodup) :
    (∀ es, es.Perm ds → ∃ p q, Program.ofDefinitions ds = .ok p ∧
      Program.ofDefinitions es = .ok q ∧ q.functions.AnswersAs p.functions ∧
      ∀ maxDepth inputs fuel, q.run maxDepth inputs fuel = p.run maxDepth inputs fuel) ∧
    ∀ d, d.signature ∉ ds.map Definition.signature → d.signature ≠ ("main", 0) →
      (¬ ∃ t : Tree, t.Occurs ds ∧ t.LooksUp d.name) →
      ∀ es, es.Perm (d :: ds) → ∃ p q, Program.ofDefinitions ds = .ok p ∧
        Program.ofDefinitions es = .ok q ∧ q.functions.size = p.functions.size + 1 ∧
        ∀ maxDepth inputs fuel,
          (p.run maxDepth inputs fuel).SameButCount (q.run maxDepth inputs fuel) := by
  obtain ⟨p, made, holds⟩ := Program.exists_ofDefinitions_eq_ok distinct
  constructor
  · intro es perm
    obtain ⟨q, made', holds'⟩ :=
      Program.exists_ofDefinitions_eq_ok ((perm.map _).nodup_iff.mpr distinct)
    refine ⟨p, q, made, made', holds.answersAs holds' perm, fun maxDepth inputs fuel => ?_⟩
    exact run_of_perm holds holds' maxDepth inputs fuel perm
  · intro d fresh notMain unused es perm
    have distinct' : ((d :: ds).map Definition.signature).Nodup :=
      List.nodup_cons.mpr ⟨fresh, distinct⟩
    obtain ⟨q, made', holds'⟩ :=
      Program.exists_ofDefinitions_eq_ok ((perm.map _).nodup_iff.mpr distinct')
    refine ⟨p, q, made, made', holds.size_eq_of_perm_cons holds' perm, ?_⟩
    exact fun maxDepth inputs fuel =>
      run_of_unused holds holds' maxDepth inputs fuel perm notMain unused

/-- `main` calls `f`, which returns 1. -/
def Definition.callingOne : List Definition :=
  [⟨"main", [], [.call (.call "f" [] ⟨1, 14⟩)], ⟨1, 1⟩⟩,
    ⟨"f", [], [.ret (some (.int 1 ⟨2, 19⟩)) ⟨2, 12⟩], ⟨2, 1⟩⟩]

/-- A function that nothing calls but itself. -/
def Definition.spare : Definition :=
  ⟨"g", [], [.ret (some (.call "g" [] ⟨3, 19⟩)) ⟨3, 12⟩], ⟨3, 1⟩⟩

theorem not_looksUp_spare :
    ¬ ∃ t : Tree, t.Occurs Definition.callingOne ∧ t.LooksUp Definition.spare.name := by
  let Listed (t : Tree) : Prop := t = .expr (.call "f" [] ⟨1, 14⟩) ∨ t = .expr (.int 1 ⟨2, 19⟩) ∨
    t = .stmt (.call (.call "f" [] ⟨1, 14⟩)) ∨
    t = .stmt (.ret (some (.int 1 ⟨2, 19⟩)) ⟨2, 12⟩) ∨
    ∃ d ∈ Definition.callingOne, t = .definition d
  have part : ∀ t u : Tree, t.PartOf u → Listed u → Listed t := by
    intro t u part listed
    rcases listed with rfl | rfl | rfl | rfl | ⟨d, among, rfl⟩
    · cases part with
      | argument among => cases among
    · cases part
    · cases part
      exact .inl rfl
    · cases part
      exact .inr (.inl rfl)
    · cases part with
      | @body s _ within =>
        simp only [Definition.callingOne, List.mem_cons, List.not_mem_nil, or_false] at among
        rcases among with rfl | rfl
        · exact .inr (.inr (.inl (congrArg Tree.stmt (List.mem_singleton.mp within))))
        · exact .inr (.inr (.inr (.inl (congrArg Tree.stmt (List.mem_singleton.mp within)))))
  rintro ⟨t, occurs, looked⟩
  have whole : ∀ d ∈ Definition.callingOne, Listed (.definition d) :=
    fun d among => .inr (.inr (.inr (.inr ⟨d, among, rfl⟩)))
  rcases occurs.of_parts whole part with rfl | rfl | rfl | rfl | ⟨d, among, rfl⟩
  all_goals simp [Tree.LooksUp, Definition.spare] at looked

theorem definitions_in_any_order_of_spare :
    let ds := Definition.callingOne
    let d := Definition.spare
    ((ds.map Definition.signature).Nodup ∧ ds.reverse.Perm ds ∧
      d.signature ∉ ds.map Definition.signature ∧ d.signature ≠ ("main", 0)) ∧
    (∃ p q, Program.ofDefinitions ds = .ok p ∧ Program.ofDefinitions ds.reverse = .ok q ∧
      q.functions.AnswersAs p.functions) ∧
    ∃ p q, Program.ofDefinitions ds = .ok p ∧ Program.ofDefinitions (ds ++ [d]) = .ok q ∧
      q.functions.size = p.functions.size + 1 ∧
      (p.run none [] 20).SameButCount (q.run none [] 20) := by
  intro ds d
  have distinct : (ds.map Definition.signature).Nodup := by decide
  have fresh : d.signature ∉ ds.map Definition.signature := by decide
  have notMain : d.signature ≠ ("main", 0) := by decide
  have reversed : ds.reverse.Perm ds := ds.reverse_perm
  have appended : (ds ++ [d]).Perm (d :: ds) := List.perm_append_singleton d ds
  obtain ⟨anyOrder, unused⟩ := definitions_in_any_order distinct
  refine ⟨⟨distinct, reversed, fresh, notMain⟩, ?_, ?_⟩
  · obtain ⟨p, q, made, made', answers, -⟩ := anyOrder ds.reverse reversed
    exact ⟨p, q, made, made', answers⟩
  · obtain ⟨p, q, made, made', size, same⟩ := unused d fresh notMain not_looksUp_spare _ appended
    exact ⟨p, q, made, made', size, same none [] 20⟩

end Protoscript

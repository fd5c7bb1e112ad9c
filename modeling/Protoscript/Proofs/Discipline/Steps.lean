import Protoscript.Proofs.Discipline
import Protoscript.Proofs.FunctionTables

/-! # Disciplined steps

The steps that evaluate no expression keep to every lawful discipline. -/

set_option autoImplicit false

namespace Protoscript

open Eval (Passed)

namespace Discipline

variable {D : Discipline} {setting : Setting} {α β : Type} {e : Extent} {m : Machine}

variable (D) in
/-- An argument whose value the discipline allows and whose variable is one that it knows. -/
structure Given (m : Machine) (a : Passed) : Prop where
  value : D.value m.store a.value
  source : ∀ x, a.source = some x → D.named m x

variable (D) in
/-- Write-backs of values that the discipline allows, to variables that it knows. -/
def Returns (m : Machine) (back : List (String × Value)) : Prop :=
  ∀ w ∈ back, D.value m.store w.2 ∧ D.named m w.1

namespace Lawful

variable (L : D.Lawful setting)

include L

theorem given_mono {after : Machine} {a : Passed} (rel : D.rel .expression m after)
    (given : D.Given m a) : D.Given after a :=
  ⟨L.value_rel rel given.value, fun x named => L.named_mono rel (given.source x named)⟩

theorem keeps_attempt {result : Except RuntimeError.Cause Value} {line : Nat}
    (plain : ∀ v, result = .ok v → v.IsPlain) :
    D.Keeps e m (Eval.attempt line result) D.Valued := by
  cases result with
  | ok v => exact L.keeps_pure fun _ => L.plain _ _ (plain v rfl)
  | error cause => exact L.keeps_fail

theorem keeps_record (event : Event) (plain : event.IsNote) :
    D.Keeps .expression m (Eval.record event) fun _ _ => True :=
  L.keeps_modify fun holds => L.console holds _ (.note .refl plain)

theorem keeps_binding? {x : String} :
    D.Keeps e m (Eval.binding? x) fun after found =>
      D.holds .expression m ∧ after = m ∧ found = m.get? x :=
  L.keeps_get (L.keeps_pure fun holds => ⟨L.narrowed holds, rfl, rfl⟩)

theorem keeps_interact {name : String} {values : List Value} {line : Nat} :
    D.Keeps .expression m (Eval.interact (Builtin.call? Builtin.all name values line))
      fun after found => ∀ v, found = some v → D.value after.store v := by
  refine L.keeps_change ?_ ?_
  · intro holds
    cases called : Builtin.call? Builtin.all name values line m.console with
    | ok found c => exact L.console holds c (Builtin.uses_of_call?_ok called)
    | error e c => exact L.console holds c (Builtin.uses_of_call?_error called)
  · intro holds found after ended v answered
    subst answered
    cases called : Builtin.call? Builtin.all name values line m.console with
    | ok found c =>
      rw [called] at ended
      cases ended
      exact L.plain _ _ (Builtin.isPlain_of_call? called)
    | error e c =>
      rw [called] at ended
      cases ended

theorem keeps_newObject : D.Keeps .expression m Eval.newObject D.Valued := by
  refine L.keeps_change (fun holds => (L.newObject holds).1) ?_
  intro holds a after same
  cases same
  exact (L.newObject holds).2

theorem keeps_newClosure {d : Definition} (code : D.code (.expr (.lambda d))) :
    D.Keeps .expression m (Eval.newClosure d) D.Valued := by
  refine L.keeps_change (fun holds => (L.newClosure holds d code).1) ?_
  intro holds a after same
  cases same
  exact (L.newClosure holds d code).2

theorem keeps_set {x : String} {v : Value} (value : D.value m.store v) (writes : D.Writes x) :
    D.Keeps .statement m (Eval.set x v) fun _ _ => True :=
  L.keeps_modify fun holds => L.set holds value x writes

theorem keeps_set_named {x : String} {v : Value} (value : D.value m.store v)
    (named : D.named m x) : D.Keeps .expression m (Eval.set x v) fun _ _ => True :=
  L.keeps_modify fun holds => L.set_named holds value named

theorem keeps_create {x : String} {v : Value} (value : D.value m.store v) :
    D.Keeps .statement m (Eval.create x v) fun _ _ => True :=
  L.keeps_modify fun holds => L.create holds value x

/-! ## Members -/

theorem keeps_objectOf {v : Value} {name : String} {line : Nat} (value : D.value m.store v) :
    D.Keeps e m (Eval.objectOf v name line) fun after o => D.value after.store (.object o) := by
  cases v with
  | object o => exact L.keeps_pure fun _ => value
  | _ => exact L.keeps_fail

theorem keeps_memberOf {v : Value} {name : String} {line : Nat} (value : D.value m.store v) :
    D.Keeps .expression m (Eval.memberOf v name line) D.Valued := by
  apply L.keeps_bind (L.keeps_objectOf value)
  intro o after holds rel object
  apply L.keeps_get
  cases found : after.store.getMember o name with
  | some w => exact L.keeps_pure fun _ => L.member holds object found
  | none => exact L.keeps_fail

theorem keeps_follow {v : Value} {line : Nat} {names : List String}
    (value : D.value m.store v) : D.Keeps .expression m (Eval.follow v line names) D.Valued := by
  induction names generalizing v m with
  | nil => exact L.keeps_pure fun _ => value
  | cons name names ih =>
    apply L.keeps_bind (L.keeps_memberOf value)
    intro w after holds rel found
    exact ih found

theorem keeps_setMember {o : ObjectId} {name : String} {v : Value} {line : Nat}
    (object : D.value m.store (.object o)) (value : D.value m.store v) :
    D.Keeps .expression m (Eval.setMember o name v line) fun _ _ => True := by
  apply L.keeps_get
  cases written : m.store.setMember o name v with
  | ok s => exact L.keeps_modify fun holds => L.setMember holds object value written
  | error kind => exact L.keeps_fail

/-- Only an assignment to a single name may bind one. -/
theorem keeps_assign_of_ne {target : List String} {v : Value} {line : Nat}
    (value : D.value m.store v) (several : ∀ x, target ≠ [x]) :
    D.Keeps .expression m (Eval.assign target v line) fun _ _ => True := by
  match target with
  | [] => exact L.keeps_fail
  | [x] => exact absurd rfl (several x)
  | root :: field :: fields =>
    apply L.keeps_bind L.keeps_binding?
    intro found after holds _ same
    obtain ⟨-, rfl, rfl⟩ := same
    cases bound : after.get? root with
    | none => exact L.keeps_fail
    | some w =>
      have start : D.value after.store w := L.binding holds bound
      apply L.keeps_bind (L.keeps_follow start)
      intro holder m₁ _ rel₁ held
      apply L.keeps_bind (L.keeps_objectOf held)
      intro o m₂ _ rel₂ object
      exact L.keeps_setMember object (L.value_rel (L.trans rel₁ rel₂) value)

theorem keeps_assign {target : List String} {v : Value} {line : Nat} (value : D.value m.store v)
    (writes : ∀ x, target = [x] → D.Writes x) :
    D.Keeps .statement m (Eval.assign target v line) fun _ _ => True := by
  by_cases single : ∃ x, target = [x]
  · obtain ⟨x, rfl⟩ := single
    exact L.keeps_set value (writes x rfl)
  · exact L.keeps_widen (L.keeps_assign_of_ne value (not_exists.mp single))

/-! ## Names and calls -/

theorem keeps_lookup {x : String} {line : Nat} :
    D.Keeps .expression m (Eval.lookup setting x line) D.Valued := by
  apply L.keeps_bind L.keeps_binding?
  intro found after holds _ same
  obtain ⟨-, rfl, rfl⟩ := same
  cases bound : after.get? x with
  | some v => exact L.keeps_pure fun _ => L.binding holds bound
  | none =>
    dsimp only
    split
    · exact L.keeps_fail
    · next d only =>
      refine L.keeps_pure fun _ => L.function _ x d ?_
      rw [only]
      exact List.mem_singleton_self d
    · exact L.keeps_fail

theorem keeps_sourceOf {function : String} {p : Param} {arg : Expr}
    (writes : ∀ x place, arg = .var x place → D.Writes x) :
    D.Keeps .expression m (Eval.sourceOf function p arg)
      fun after source => ∀ x, source = some x → D.named after x := by
  have refused : ∀ {m : Machine}, D.Keeps .expression m
      (if p.byRef then Eval.fail (.refNeedsVariable p.name function) arg.position.line
        else pure none)
      fun after source => ∀ x, source = some x → D.named after x := by
    intro m
    split
    · exact L.keeps_fail
    · apply L.keeps_pure
      exact fun _ => nofun
  unfold Eval.sourceOf
  dsimp only
  split
  · next x place =>
    apply L.keeps_bind L.keeps_binding?
    intro found after holds _ same
    obtain ⟨-, rfl, rfl⟩ := same
    split
    · next bound =>
      apply L.keeps_pure
      intro _ y same
      cases same
      exact L.named_of_binding holds (writes x place rfl) bound
    · exact refused
  · exact refused

theorem keeps_bindParams {ps : List Param} {passed : List Passed}
    (values : ∀ a ∈ passed, D.value m.store a.value) :
    D.Keeps .statement m (Eval.bindParams ps passed) fun _ _ => True := by
  induction ps generalizing passed m with
  | nil => exact L.keeps_pure fun _ => trivial
  | cons p ps ih =>
    cases passed with
    | nil => exact L.keeps_pure fun _ => trivial
    | cons a as =>
      apply L.keeps_bind (L.keeps_create (values a List.mem_cons_self))
      intro _ after _ rel _
      exact ih fun b later => L.value_rel rel (values b (List.mem_cons_of_mem a later))

theorem keeps_bindThis {this : Option ObjectId}
    (value : ∀ o, this = some o → D.value m.store (.object o)) :
    D.Keeps .statement m (Eval.bindThis this) fun _ _ => True := by
  cases this with
  | none => exact L.keeps_pure fun _ => trivial
  | some o => exact L.keeps_create (value o rfl)

theorem keeps_writeBack {back : List (String × Value)} (returns : D.Returns m back) :
    D.Keeps .expression m (Eval.writeBack back) fun _ _ => True := by
  induction back generalizing m with
  | nil => exact L.keeps_pure fun _ => trivial
  | cons w rest ih =>
    obtain ⟨value, named⟩ := returns w List.mem_cons_self
    apply L.keeps_bind (L.keeps_set_named value named)
    intro _ after _ rel _
    refine ih ?_
    intro u later
    obtain ⟨value, named⟩ := returns u (List.mem_cons_of_mem w later)
    exact ⟨L.value_rel rel value, L.named_mono rel named⟩

/-- The final values are values of the machine, and they go to variables that arguments named. -/
theorem finalValues_of_holds (holds : D.holds .expression m) {ps : List Param}
    {passed : List Passed} :
    ∀ w ∈ Eval.finalValues m ps passed,
      D.value m.store w.2 ∧ ∃ a ∈ passed, a.source = some w.1 := by
  induction ps generalizing passed with
  | nil =>
    intro w member
    cases passed <;> cases member
  | cons p ps ih =>
    cases passed with
    | nil =>
      intro w member
      cases member
    | cons a as =>
      have later : ∀ w ∈ Eval.finalValues m ps as,
          D.value m.store w.2 ∧ ∃ b ∈ a :: as, b.source = some w.1 := by
        intro w member
        obtain ⟨value, b, among, source⟩ := ih w member
        exact ⟨value, b, List.mem_cons_of_mem a among, source⟩
      intro w member
      unfold Eval.finalValues at member
      split at member
      · next x byRef source =>
        rcases List.mem_cons.mp member with rfl | member
        · refine ⟨?_, a, List.mem_cons_self, source⟩
          cases bound : m.get? p.name with
          | none => exact L.plain _ _ trivial
          | some v => exact L.binding holds bound
        · exact later w member
      · exact later w member

end Lawful

end Discipline

end Protoscript

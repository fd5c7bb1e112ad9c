import Protoscript.Proofs.MemberWrites
import Protoscript.Proofs.Scoping

/-! # Dotted assignment

An assignment to a path of names first evaluates its value.  Then it looks up all names of the path
but the last, on the machine as the value left it, and writes the last to the object that it has
come to.  A path `Leads` to a value or `Strays` for one cause; what keeps an assignment from being
carried out is listed by `Misses`.  In each such case the machine stays as it is after the value,
for the only change comes last: `dotted_assignment_atomic`. -/

set_option autoImplicit false

namespace Protoscript

open RuntimeError (Cause)
open Store (protoName)

namespace Store

/-- The path leads from one value to another: each of its names is a member of the object that
those before it lead to, be it a member of its own or of a prototype. -/
inductive Leads (s : Store) : Value → List String → Value → Prop
  | here (v : Value) : Leads s v [] v
  | on {o : ObjectId} {name : String} {names : List String} {v w : Value}
    (found : s.getMember o name = some v) (rest : Leads s v names w) :
    Leads s (.object o) (name :: names) w

/-- The path comes to a name that is no member of what it has come to. -/
inductive Strays (s : Store) : Value → List String → Cause → Prop
  | noObject {v : Value} (other : v.kind ≠ .object) (name : String) (names : List String) :
    Strays s v (name :: names) (.noMembers name v.kind)
  | missing {o : ObjectId} {name : String} (lacks : s.getMember o name = none)
    (names : List String) : Strays s (.object o) (name :: names) (.noMember name)
  | on {o : ObjectId} {name : String} {names : List String} {v : Value} {cause : Cause}
    (found : s.getMember o name = some v) (rest : Strays s v names cause) :
    Strays s (.object o) (name :: names) cause

variable {s : Store} {v w : Value} {path : List String}

theorem exists_leads_or_strays (s : Store) (path : List String) :
    ∀ v, (∃ w, s.Leads v path w) ∨ ∃ cause, s.Strays v path cause := by
  induction path with
  | nil => exact fun v => .inl ⟨v, .here v⟩
  | cons name names ih =>
    intro v
    by_cases object : v.kind = .object
    · cases v with
      | object o =>
        cases found : s.getMember o name with
        | none => exact .inr ⟨_, .missing found names⟩
        | some next =>
          rcases ih next with ⟨w, leads⟩ | ⟨cause, strays⟩
          · exact .inl ⟨w, .on found leads⟩
          · exact .inr ⟨cause, .on found strays⟩
      | _ => cases object
    · exact .inr ⟨_, .noObject object name names⟩

/-- Values of the store lead to values of the store. -/
theorem Leads.has (wf : s.WellFormed) (leads : s.Leads v path w) (has : s.Has v) : s.Has w := by
  induction leads with
  | here => exact has
  | on found _ ih => exact ih (wf.has_of_getMember found)

end Store

/-- The member at the end of a path of names that starts at an expression. -/
def Expr.members (e : Expr) (place : Position) (path : List String) : Expr :=
  path.foldl (fun e name => .member e name place) e

/-- The variable is bound, and the path leads from its value to this one. -/
def Machine.Reads (m : Machine) (root : String) (path : List String) (w : Value) : Prop :=
  ∃ v, m.get? root = some v ∧ m.store.Leads v path w

/-- What keeps an assignment of `v` to `root`, `parents` and `last` from being carried out. -/
inductive Machine.Misses (m : Machine) (root : String) (parents : List String) (last : String)
    (v : Value) : Cause → Prop
  | unbound (unbound : m.get? root = none) : Misses m root parents last v (.undefinedVariable root)
  | strays {w : Value} {cause : Cause} (bound : m.get? root = some w)
    (strays : m.store.Strays w parents cause) : Misses m root parents last v cause
  | noObject {w : Value} (reads : m.Reads root parents w) (other : w.kind ≠ .object) :
    Misses m root parents last v (.noMembers last w.kind)
  | badProto {o : ObjectId} (reads : m.Reads root parents (.object o)) (proto : last = protoName)
    (object : v.kind ≠ .object) (nil : v.kind ≠ .nil) :
    Misses m root parents last v (.badProto v.kind)

namespace Eval

variable {setting : Setting} {m : Machine} {root last : String} {path parents : List String}
  {v w : Value} {o : ObjectId} {cause : Cause}

/-! ## Following a path -/

theorem objectOf_of_ne (other : v.kind ≠ .object) (name : String) (line : Nat) :
    objectOf v name line = fail (.noMembers name v.kind) line := by
  cases v with
  | object o => exact absurd rfl other
  | _ => rfl

theorem run_memberOf (o : ObjectId) (name : String) (line : Nat) (m : Machine) :
    (memberOf (.object o) name line).run m =
      match m.store.getMember o name with
      | some w => .ok w m
      | none => .error (.error ⟨.noMember name, line⟩) m := by
  have chosen : (memberOf (.object o) name line).run m = (match m.store.getMember o name with
      | some w => pure w
      | none => fail (.noMember name) line : Eval Value).run m := rfl
  rw [chosen]
  cases m.store.getMember o name <;> rfl

theorem run_memberOf_of_some {name : String} (found : m.store.getMember o name = some w)
    (line : Nat) : (memberOf (.object o) name line).run m = .ok w m := by
  rw [run_memberOf, found]

theorem run_follow_of_leads (leads : m.store.Leads v path w) (line : Nat) :
    (follow v line path).run m = .ok w m := by
  induction leads with
  | here => rfl
  | on found _ ih =>
    rw [follow, run_bind_of_ok (run_memberOf_of_some found line)]
    exact ih

theorem run_follow_of_strays (strays : m.store.Strays v path cause) (line : Nat) :
    (follow v line path).run m = .error (.error ⟨cause, line⟩) m := by
  induction strays with
  | noObject other name names =>
    rw [follow, memberOf, objectOf_of_ne other]
    rfl
  | @missing o name lacks names =>
    have ended : (memberOf (.object o) name line).run m =
        .error (.error ⟨.noMember name, line⟩) m := by
      rw [run_memberOf, lacks]
    rw [follow, run_bind_of_error ended]
  | on found _ ih =>
    rw [follow, run_bind_of_ok (run_memberOf_of_some found line)]
    exact ih

/-- The expression of the path comes to where the path leads. -/
theorem run_members (leads : m.store.Leads v path w) (place : Position) :
    ∀ {e : Expr} {fuel : Nat}, (expr setting fuel e).run m = .ok v m →
      (expr setting (fuel + path.length) (e.members place path)).run m = .ok w m := by
  induction leads with
  | here => exact id
  | @on o name names v w found _ ih =>
    intro e fuel ended
    have next : (expr setting (fuel + 1) (.member e name place)).run m = .ok v m := by
      rw [expr, run_bind_of_ok ended]
      exact run_memberOf_of_some found place.line
    rw [List.length_cons, Nat.add_comm names.length, ← Nat.add_assoc]
    exact ih next

theorem run_var_of_bound {x : String} (bound : m.get? x = some v) (fuel : Nat) (place : Position) :
    (expr setting (fuel + 1) (.var x place)).run m = .ok v m := by
  have asked : (binding? x).run m = .ok (some v) m := congrArg (Outcome.ok · m) bound
  rw [expr, lookup, run_bind_of_ok asked]
  rfl

/-! ## Assigning to a path -/

theorem run_assign_of_unbound (unbound : m.get? root = none) (line : Nat) :
    (assign (root :: (parents ++ [last])) v line).run m =
      .error (.error ⟨.undefinedVariable root, line⟩) m := by
  obtain ⟨field, fields, split⟩ := List.exists_cons_of_ne_nil (List.concat_ne_nil last parents)
  have asked : (binding? root).run m = .ok none m := congrArg (Outcome.ok · m) unbound
  rw [split, assign, run_bind_of_ok asked]
  rfl

theorem run_assign_of_bound (bound : m.get? root = some w) (line : Nat) :
    (assign (root :: (parents ++ [last])) v line).run m =
      (follow w line parents >>= fun holder => objectOf holder last line >>= fun o =>
        setMember o last v line).run m := by
  obtain ⟨field, fields, split⟩ := List.exists_cons_of_ne_nil (List.concat_ne_nil last parents)
  have asked : (binding? root).run m = .ok (some w) m := congrArg (Outcome.ok · m) bound
  rw [split, assign, run_bind_of_ok asked]
  simp only [← split, List.dropLast_concat, List.getLast_concat]

theorem run_assign_of_reads (reads : m.Reads root parents w) (line : Nat) :
    (assign (root :: (parents ++ [last])) v line).run m =
      (objectOf w last line >>= fun o => setMember o last v line).run m := by
  obtain ⟨start, bound, leads⟩ := reads
  rw [run_assign_of_bound bound, run_bind_of_ok (run_follow_of_leads leads line)]

theorem run_assign_of_object (reads : m.Reads root parents (.object o)) (line : Nat) :
    (assign (root :: (parents ++ [last])) v line).run m =
      match m.store.setMember o last v with
      | .ok store => .ok () { m with store := store }
      | .error kind => .error (.error ⟨.badProto kind, line⟩) m := by
  rw [run_assign_of_reads reads]
  exact run_setMember o last v line m

theorem run_assign_of_misses (misses : m.Misses root parents last v cause) (line : Nat) :
    (assign (root :: (parents ++ [last])) v line).run m = .error (.error ⟨cause, line⟩) m := by
  cases misses with
  | unbound unbound => exact run_assign_of_unbound unbound line
  | strays bound strays =>
    rw [run_assign_of_bound bound, run_bind_of_error (run_follow_of_strays strays line)]
  | noObject reads other =>
    rw [run_assign_of_reads reads, objectOf_of_ne other]
    rfl
  | @badProto o reads proto object nil =>
    have refused : (MemberWrite.mk o last v line).isAllowed = false :=
      MemberWrite.isAllowed_eq_false_iff.mpr ⟨proto, object, nil⟩
    have unwritten : m.store.setMember o last v = .error v.kind :=
      MemberWrite.setMember_of_refused refused m.store
    rw [run_assign_of_object reads, unwritten]

variable (m root last parents v) in
/-- An assignment finds the object to write to, or something keeps it from being carried out. -/
theorem exists_write_or_misses :
    (∃ o t, m.Reads root parents (.object o) ∧ m.store.setMember o last v = .ok t) ∨
      ∃ cause, m.Misses root parents last v cause := by
  cases bound : m.get? root with
  | none => exact .inr ⟨_, .unbound bound⟩
  | some start =>
    rcases m.store.exists_leads_or_strays parents start with ⟨w, leads⟩ | ⟨cause, strays⟩
    · have reads : m.Reads root parents w := ⟨start, bound, leads⟩
      by_cases object : w.kind = .object
      · cases w with
        | object o =>
          cases allowed : (MemberWrite.mk o last v 0).isAllowed with
          | true =>
            obtain ⟨t, written⟩ := MemberWrite.exists_setMember allowed m.store
            exact .inl ⟨o, t, reads, written⟩
          | false =>
            obtain ⟨proto, object, nil⟩ := MemberWrite.isAllowed_eq_false_iff.mp allowed
            exact .inr ⟨_, .badProto reads proto object nil⟩
        | _ => cases object
      · exact .inr ⟨_, .noObject reads object⟩
    · exact .inr ⟨cause, .strays bound strays⟩

/-- An assignment to a path of two names or more, once its value is evaluated, either changes one
slot of the object that reading all names but the last comes to on the machine as it is then, or
leaves this machine as it is. -/
theorem dotted_assignment_atomic (reached : m.Reachable setting) (fuel : Nat) (root : String)
    (parents : List String) (last : String) (value : Expr) (place : Position) :
    let out :=
      (stmt setting (fuel + 1) (.assign (root :: (parents ++ [last])) value place)).run m
    (∀ v after, (expr setting fuel value).run (m.record (.executed place.line)) = .ok v after →
      (∃ o t, out = .ok .next { after with store := t } ∧ after.store.Writes o last v t ∧
        after.Reads root parents (.object o) ∧
        ∀ more, (expr setting (more + 1 + parents.length)
          (.members (.var root place) place parents)).run after = .ok (.object o) after) ∨
      ∃ cause, out = .error (.error ⟨cause, place.line⟩) after ∧
        after.Misses root parents last v cause) ∧
    ∀ s after, (expr setting fuel value).run (m.record (.executed place.line)) = .error s after →
      out = .error s after := by
  intro out
  have ran : out = _ := run_stmt_assign setting fuel m _ value place
  refine ⟨?_, ?_⟩
  · intro v after ended
    rw [ended] at ran
    have wf : after.WellFormed := (scoped_value reached.wellFormed (congrArg _ ended)).1
    rcases exists_write_or_misses after root last parents v with
      ⟨o, t, reads, written⟩ | ⟨cause, misses⟩
    · refine .inl ⟨o, t, ?_, ?_, reads, ?_⟩
      · rw [ran]
        dsimp only
        rw [run_assign_of_object reads, written]
      · obtain ⟨start, bound, leads⟩ := reads
        have allocated : o.index < after.store.objects.size :=
          leads.has wf.store (wf.has_of_get? bound)
        exact Store.writes_of_setMember allocated written
      · intro more
        obtain ⟨start, bound, leads⟩ := reads
        exact run_members leads place (run_var_of_bound bound more place)
    · refine .inr ⟨cause, ?_, misses⟩
      rw [ran]
      dsimp only
      rw [run_assign_of_misses misses]
  · intro s after ended
    rw [ended] at ran
    exact ran

/-- The name in the middle is a member of the prototype, and the write goes to what it holds. -/
theorem dotted_assignment_atomic_of_inherited :
    let setting : Setting := ⟨.empty, none⟩
    let m := ((session setting [(9, .exec [
      .assign ["a"] (.object .start) .start, .assign ["b"] (.object .start) .start,
      .assign ["b", "proto"] (.var "a" .start) .start,
      .assign ["a", "part"] (.object .start) .start])]).run (.start [])).machine
    m.Reachable setting ∧ ∃ o t, (stmt setting 9
      (.assign ["b", "part", "size"] (.int 1 .start) .start)).run m =
        .ok .next { m.record (.executed 1) with store := t } ∧
      m.store.Writes o "size" (.int 1) t ∧ m.Reads "b" ["part"] (.object o) := by
  intro setting m
  have reached : m.Reachable setting := ⟨[], _, _, run_mem_history _ _, rfl⟩
  have ended : ∃ after, (stmt setting 9
      (.assign ["b", "part", "size"] (.int 1 .start) .start)).run m = .ok .next after := by
    apply Exists.intro
    with_unfolding_all rfl
  obtain ⟨after, ended⟩ := ended
  have atomic := (dotted_assignment_atomic reached 8 "b" ["part"] "size" (.int 1 .start) .start).1
    (.int 1) (m.record (.executed 1)) (by rw [expr]; rfl)
  rcases atomic with ⟨o, t, ran, writes, reads, -⟩ | ⟨cause, ran, -⟩
  · exact ⟨reached, o, t, ran, writes, reads⟩
  · rw [List.cons_append, List.nil_append, ended] at ran
    cases ran

end Eval

end Protoscript

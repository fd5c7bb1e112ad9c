import Mathlib.Data.Nat.Find
import Protoscript.Eval.Steps
import Protoscript.Proofs.PrototypeChain

/-! # Writing members

A write that is carried out changes one slot of one object, a field or the prototype (`Writes`); one
that is refused changes nothing.  So after any writes to objects that were empty, each slot
holds what was last written to it (`Reflects`).  What other objects find on their chains changes
with it: after a write to the field `f` of `o`, exactly the objects whose chain `Reaches` `o`
before any other object with that field find the value written (`getMember_of_writes`). -/

set_option autoImplicit false

namespace Protoscript

namespace Store

/-- From `s` to `t` the one slot `name` of the object `o` has got the value `v`. -/
structure Writes (s : Store) (o : ObjectId) (name : String) (v : Value) (t : Store) : Prop where
  field : ∀ p other,
    t.own? p other = if p = o ∧ other = name ∧ name ≠ protoName then some v else s.own? p other
  proto : ∀ p, t.protoValue p = if p = o ∧ name = protoName then v else s.protoValue p
  size : t.objects.size = s.objects.size
  frames : t.frames = s.frames
  closures : t.closures = s.closures

/-- The chain from `p` comes to `o` before it comes to any other object with the field. -/
def Reaches (s : Store) (field : String) (p o : ObjectId) : Prop :=
  ∃ n, s.ancestor? n p = some o ∧
    ∀ k < n, ∀ q, s.ancestor? k p = some q → q ≠ o → s.own? q field = none

variable {s t : Store} {o : ObjectId} {name : String} {v : Value}

/-! ## One write -/

theorem writes_setField (allocated : o.index < s.objects.size) (field : name ≠ protoName)
    (v : Value) : s.Writes o name v (s.setField o name v) where
  field p other := by
    unfold own?
    by_cases here : p = o
    · subst here
      rw [object_setField_self allocated, Bindings.get?_insert]
      simp [field]
    · rw [object_setField_of_ne s here, if_neg fun all => here all.1]
  proto p := by
    rw [if_neg fun all => field all.2]
    unfold protoValue
    by_cases here : p = o
    · subst here
      rw [object_setField_self allocated]
    · rw [object_setField_of_ne s here]
  size := Array.size_modify
  frames := rfl
  closures := rfl

theorem writes_setProto (allocated : o.index < s.objects.size) {proto : Option ObjectId}
    (value : v = (proto.map Value.object).getD .nil) :
    s.Writes o protoName v (s.setProto o proto) where
  field p other := by
    rw [if_neg fun all => all.2.2 rfl]
    unfold own?
    by_cases here : p = o
    · subst here
      rw [object_setProto_self allocated]
    · rw [object_setProto_of_ne s here]
  proto p := by
    unfold protoValue
    by_cases here : p = o
    · subst here
      rw [object_setProto_self allocated, if_pos ⟨rfl, rfl⟩, value]
      cases proto <;> rfl
    · rw [object_setProto_of_ne s here, if_neg fun all => here all.1]
  size := Array.size_modify
  frames := rfl
  closures := rfl

theorem writes_of_setMember (allocated : o.index < s.objects.size)
    (written : s.setMember o name v = .ok t) : s.Writes o name v t := by
  unfold setMember at written
  split at written
  · next named =>
    subst named
    cases v with
    | object p =>
      cases written
      exact writes_setProto allocated rfl
    | nil =>
      cases written
      exact writes_setProto allocated rfl
    | _ => cases written
  · next field =>
    cases written
    exact writes_setField allocated field v

/-! ## What is found on the chains -/

namespace Writes

variable (writes : s.Writes o name v t)

include writes

theorem proto_eq (field : name ≠ protoName) (p : ObjectId) :
    (t.object p).proto = (s.object p).proto := by
  have same := writes.proto p
  rw [if_neg fun all => field all.2] at same
  unfold protoValue at same
  generalize (t.object p).proto = after, (s.object p).proto = before at same ⊢
  cases after <;> cases before <;> cases same <;> rfl

/-- A write to a field changes no chain. -/
theorem ancestor?_eq (field : name ≠ protoName) (n : Nat) (p : ObjectId) :
    t.ancestor? n p = s.ancestor? n p := by
  induction n generalizing p with
  | zero => rfl
  | succ n ih =>
    rw [ancestor?, ancestor?, writes.proto_eq field]
    cases (s.object p).proto with
    | none => rfl
    | some q => exact ih q

theorem own?_self (field : name ≠ protoName) : t.own? o name = some v := by
  rw [writes.field, if_pos ⟨rfl, rfl, field⟩]

theorem own?_of_ne {p : ObjectId} (other : p ≠ o) (field : String) :
    t.own? p field = s.own? p field := by
  rw [writes.field, if_neg fun all => other all.1]

theorem getMember_of_ne (field : name ≠ protoName) {other : String} (differs : other ≠ name)
    (p : ObjectId) : t.getMember p other = s.getMember p other := by
  by_cases proto : other = protoName
  · rw [getMember, getMember, if_pos proto, if_pos proto, writes.proto,
      if_neg fun all => field all.2]
  · ext w
    rw [getMember_eq_some_iff proto, getMember_eq_some_iff proto]
    have own (q : ObjectId) : t.own? q other = s.own? q other := by
      rw [writes.field, if_neg fun all => differs all.2.1]
    have same (n : Nat) : t.FirstAt other p n w ↔ s.FirstAt other p n w := by
      constructor <;> intro found <;> refine ⟨?_, ?_⟩
      · simpa only [writes.ancestor?_eq field, own] using found.has
      · simpa only [writes.ancestor?_eq field, own] using found.first
      · simpa only [writes.ancestor?_eq field, own] using found.has
      · simpa only [writes.ancestor?_eq field, own] using found.first
    simp only [same]

theorem getMember_of_reaches (field : name ≠ protoName) {p : ObjectId}
    (reaches : s.Reaches name p o) : t.getMember p name = some v := by
  -- On the way to the first place of `o` on the chain no object is `o`, and none has the field.
  have ever : ∃ n, s.ancestor? n p = some o := by
    obtain ⟨n, reached, -⟩ := reaches
    exact ⟨n, reached⟩
  obtain ⟨m, reached, free⟩ := reaches
  let n := Nat.find ever
  have less : n ≤ m := Nat.find_min' ever reached
  refine (getMember_eq_some_iff field).mpr ⟨n, ⟨o, ?_, writes.own?_self field⟩, ?_⟩
  · rw [writes.ancestor?_eq field]
    exact Nat.find_spec ever
  · intro k before q passed
    rw [writes.ancestor?_eq field] at passed
    have other : q ≠ o := by
      intro same
      rw [same] at passed
      exact Nat.find_min ever before passed
    rw [writes.own?_of_ne other]
    exact free k (Nat.lt_of_lt_of_le before less) q passed other

theorem getMember_of_not_reaches (field : name ≠ protoName) {p : ObjectId}
    (apart : ¬ s.Reaches name p o) : t.getMember p name = s.getMember p name := by
  ext w
  rw [getMember_eq_some_iff field, getMember_eq_some_iff field]
  constructor
  · intro searched
    obtain ⟨n, ⟨q, reached, has⟩, first⟩ := searched
    rw [writes.ancestor?_eq field] at reached
    have before : ∀ k < n, ∀ r, s.ancestor? k p = some r → s.own? r name = none := by
      intro k less r passed
      have lacks := first k less r (by rw [writes.ancestor?_eq field]; exact passed)
      have other : r ≠ o := by
        intro same
        rw [same, writes.own?_self field] at lacks
        cases lacks
      rwa [writes.own?_of_ne other] at lacks
    have other : q ≠ o := by
      intro same
      subst same
      exact apart ⟨n, reached, fun k less r passed _ => before k less r passed⟩
    rw [writes.own?_of_ne other] at has
    exact ⟨n, ⟨q, reached, has⟩, before⟩
  · intro searched
    obtain ⟨n, ⟨q, reached, has⟩, first⟩ := searched
    have never : ∀ k ≤ n, ∀ r, s.ancestor? k p = some r → r ≠ o := by
      intro k most r passed same
      subst same
      exact apart ⟨k, passed, fun j less r' earlier _ =>
        first j (Nat.lt_of_lt_of_le less most) r' earlier⟩
    refine ⟨n, ⟨q, ?_, ?_⟩, ?_⟩
    · rw [writes.ancestor?_eq field]
      exact reached
    · rw [writes.own?_of_ne (never n (Nat.le_refl n) q reached)]
      exact has
    · intro k less r passed
      rw [writes.ancestor?_eq field] at passed
      rw [writes.own?_of_ne (never k (Nat.le_of_lt less) r passed)]
      exact first k less r passed

end Writes

open Classical in
/-- After a write to a field, the objects whose chain reaches the one written to before any other
with that field find the value written; all others find what they found before, and so do these
under other names. -/
theorem getMember_of_writes (writes : s.Writes o name v t) (field : name ≠ protoName)
    (p : ObjectId) (other : String) :
    t.getMember p other =
      if other = name ∧ s.Reaches name p o then some v else s.getMember p other := by
  by_cases same : other = name
  · subst same
    by_cases reaches : s.Reaches other p o
    · rw [if_pos ⟨rfl, reaches⟩]
      exact writes.getMember_of_reaches field reaches
    · rw [if_neg fun all => reaches all.2]
      exact writes.getMember_of_not_reaches field reaches
  · rw [if_neg fun all => same all.1]
    exact writes.getMember_of_ne field same p

end Store

/-! ## Writes in turn -/

theorem Eval.run_setMember (o : ObjectId) (name : String) (v : Value) (line : Nat) (m : Machine) :
    (Eval.setMember o name v line).run m =
      match m.store.setMember o name v with
      | .ok store => .ok () { m with store := store }
      | .error kind => .error (.error ⟨.badProto kind, line⟩) m := by
  have chosen : (Eval.setMember o name v line).run m = (match m.store.setMember o name v with
      | .ok store => Eval.modify fun m => { m with store := store }
      | .error kind => Eval.fail (.badProto kind) line : Eval Unit).run m := rfl
  rw [chosen]
  cases m.store.setMember o name v <;> rfl

/-- A request to write a member of an object. -/
structure MemberWrite where
  object : ObjectId
  name : String
  value : Value
  line : Nat

namespace MemberWrite

open Store (protoName)

/-- Only what is neither an object nor nil is refused, and that only as a prototype. -/
def isAllowed (w : MemberWrite) : Bool :=
  w.name ≠ protoName || w.value.kind = .object || w.value.kind = .nil

def perform (w : MemberWrite) : Eval Unit := Eval.setMember w.object w.name w.value w.line

/-- Performs writes in turn, refused ones among them. -/
def performAll : List MemberWrite → Eval Unit
  | [] => pure ()
  | w :: ws => do
    Eval.settle w.perform
    performAll ws

/-- The value of the last of the writes that was carried out on that slot of that object. -/
def last? (ws : List MemberWrite) (o : ObjectId) (name : String) : Option Value :=
  (ws.reverse.find? fun w => w.isAllowed && w.object = o && w.name = name).map value

theorem last?_concat (ws : List MemberWrite) (w : MemberWrite) (o : ObjectId) (name : String) :
    last? (ws ++ [w]) o name =
      if w.isAllowed ∧ w.object = o ∧ w.name = name then some w.value else last? ws o name := by
  rw [last?, List.reverse_concat, List.find?_cons]
  by_cases carried : w.isAllowed ∧ w.object = o ∧ w.name = name
  · simp [carried]
  · rw [if_neg carried]
    have passed : (w.isAllowed && w.object = o && w.name = name) = false := by
      simpa [and_assoc] using carried
    rw [passed]
    rfl

theorem isAllowed_eq_false_iff {w : MemberWrite} : w.isAllowed = false ↔
    w.name = protoName ∧ w.value.kind ≠ .object ∧ w.value.kind ≠ .nil := by
  simp only [isAllowed, Bool.or_eq_false_iff, decide_eq_false_iff_not, not_not, and_assoc, ne_eq]

theorem setMember_of_refused {w : MemberWrite} (refused : w.isAllowed = false) (s : Store) :
    s.setMember w.object w.name w.value = .error w.value.kind := by
  obtain ⟨proto, object, nil⟩ := isAllowed_eq_false_iff.mp refused
  obtain ⟨o, name, v, line⟩ := w
  cases v with
  | object p => exact absurd rfl object
  | nil => exact absurd rfl nil
  | _ => exact if_pos proto

theorem exists_setMember {w : MemberWrite} (allowed : w.isAllowed = true) (s : Store) :
    ∃ t, s.setMember w.object w.name w.value = .ok t := by
  obtain ⟨o, name, v, line⟩ := w
  by_cases proto : name = protoName
  · cases v with
    | object p => exact ⟨_, if_pos proto⟩
    | nil => exact ⟨_, if_pos proto⟩
    | _ => simp [isAllowed, proto, Value.kind] at allowed
  · exact ⟨_, if_neg proto⟩

variable {m : Machine}

theorem run_perform_of_refused {w : MemberWrite} (refused : w.isAllowed = false) :
    w.perform.run m = .error (.error ⟨.badProto w.value.kind, w.line⟩) m := by
  rw [perform, Eval.run_setMember, setMember_of_refused refused]

theorem run_perform_of_allowed {w : MemberWrite} (allowed : w.isAllowed = true)
    (known : w.object.index < m.store.objects.size) :
    ∃ t, w.perform.run m = .ok () { m with store := t } ∧
      m.store.Writes w.object w.name w.value t := by
  obtain ⟨t, written⟩ := exists_setMember allowed m.store
  refine ⟨t, ?_, Store.writes_of_setMember known written⟩
  rw [perform, Eval.run_setMember, written]

end MemberWrite

open MemberWrite
open Store (protoName)

/-- Each slot holds the last value that the writes gave it.  A prototype is an object or nil, and
there is no field of its name. -/
structure Store.Reflects (s : Store) (ws : List MemberWrite) : Prop where
  field : ∀ o name, name ≠ protoName → s.own? o name = last? ws o name
  proto : ∀ o, s.protoValue o = (last? ws o protoName).getD .nil
  noField : ∀ o, s.own? o protoName = none

namespace Store.Reflects

variable {s t : Store} {ws : List MemberWrite} {w : MemberWrite}

theorem of_empty (empty : ∀ o, s.object o = .empty) : s.Reflects [] where
  field o name _ := by
    rw [own?, empty]
    exact Bindings.get?_empty name
  proto o := by
    rw [protoValue, empty]
    rfl
  noField o := by
    rw [own?, empty]
    exact Bindings.get?_empty protoName

theorem concat (reflects : s.Reflects ws) (allowed : w.isAllowed = true)
    (writes : s.Writes w.object w.name w.value t) : t.Reflects (ws ++ [w]) where
  field o name field := by
    rw [last?_concat, writes.field, reflects.field o name field]
    have same : (o = w.object ∧ name = w.name ∧ w.name ≠ protoName) ↔
        (w.isAllowed = true ∧ w.object = o ∧ w.name = name) := by
      constructor
      · intro written
        obtain ⟨rfl, rfl, -⟩ := written
        exact ⟨allowed, rfl, rfl⟩
      · intro written
        obtain ⟨-, rfl, rfl⟩ := written
        exact ⟨rfl, rfl, field⟩
    simp only [same]
  proto o := by
    rw [last?_concat, writes.proto, reflects.proto o]
    have same : (o = w.object ∧ w.name = protoName) ↔
        (w.isAllowed = true ∧ w.object = o ∧ w.name = protoName) := by
      constructor
      · intro written
        exact ⟨allowed, written.1.symm, written.2⟩
      · intro written
        exact ⟨written.2.1.symm, written.2.2⟩
    simp only [same]
    split <;> rfl
  noField o := by
    rw [writes.field, if_neg fun written => written.2.2 written.2.1.symm]
    exact reflects.noField o

theorem concat_refused (reflects : s.Reflects ws) (refused : w.isAllowed = false) :
    s.Reflects (ws ++ [w]) := by
  have none (o : ObjectId) (name : String) : last? (ws ++ [w]) o name = last? ws o name := by
    rw [last?_concat, if_neg]
    intro carried
    rw [refused] at carried
    cases carried.1
  refine ⟨?_, ?_, reflects.noField⟩
  · intro o name field
    rw [none, reflects.field o name field]
  · intro o
    rw [none, reflects.proto o]

end Store.Reflects

theorem reflects_of_performAll (ws : List MemberWrite) : ∀ {m : Machine} {before},
    (∀ w ∈ ws, w.object.index < m.store.objects.size) → m.store.Reflects before →
    ∃ after, (performAll ws).run m = .ok () after ∧ after.store.Reflects (before ++ ws) ∧
      after.store.objects.size = m.store.objects.size := by
  induction ws with
  | nil =>
    intro m before _ reflects
    exact ⟨m, rfl, by rwa [List.append_nil], rfl⟩
  | cons w ws ih =>
    intro m before known reflects
    have first := known w List.mem_cons_self
    have stepped : ∃ between, (Eval.settle w.perform).run m = .ok () between ∧
        between.store.Reflects (before ++ [w]) ∧
          between.store.objects.size = m.store.objects.size := by
      cases allowed : w.isAllowed with
      | true =>
        obtain ⟨t, ran, writes⟩ := run_perform_of_allowed allowed first
        refine ⟨{ m with store := t }, ?_, reflects.concat allowed writes, writes.size⟩
        dsimp only [Eval.settle]
        rw [ran]
      | false =>
        refine ⟨m, ?_, reflects.concat_refused allowed, rfl⟩
        dsimp only [Eval.settle]
        rw [run_perform_of_refused allowed]
    obtain ⟨between, ran, reflects, size⟩ := stepped
    obtain ⟨after, rest, reflects, size'⟩ := ih (m := between)
      (fun u among => size ▸ known u (List.mem_cons_of_mem w among)) reflects
    refine ⟨after, ?_, ?_, size'.trans size⟩
    · exact (Eval.run_bind_of_ok ran fun _ => performAll ws).trans rest
    · rwa [List.append_assoc, List.singleton_append] at reflects

open Classical in
/-- Writes to objects that were empty leave in each slot what was last written to it, and a further
write is refused without a trace or changes its slot and nothing else.  If it is to a field, the
objects whose chain reaches the one written to before any other with that field find its value there
from then on, and all else that is found is what was found before. -/
theorem member_writes_take_effect {m : Machine} (empty : ∀ o, m.store.object o = .empty)
    {ws : List MemberWrite} (known : ∀ w ∈ ws, w.object.index < m.store.objects.size) :
    ∃ after, (performAll ws).run m = .ok () after ∧ after.store.Reflects ws ∧
      ∀ w : MemberWrite, w.object.index < m.store.objects.size →
        (w.isAllowed = false →
          w.perform.run after = .error (.error ⟨.badProto w.value.kind, w.line⟩) after) ∧
        (w.isAllowed = true → ∃ t, w.perform.run after = .ok () { after with store := t } ∧
          after.store.Writes w.object w.name w.value t ∧
          (w.name ≠ protoName → ∀ p name, t.getMember p name =
            if name = w.name ∧ after.store.Reaches w.name p w.object then some w.value
            else after.store.getMember p name)) := by
  obtain ⟨after, ran, reflects, size⟩ := reflects_of_performAll ws known (.of_empty empty)
  refine ⟨after, ran, reflects, ?_⟩
  intro w allocated
  rw [← size] at allocated
  refine ⟨run_perform_of_refused, ?_⟩
  intro allowed
  obtain ⟨t, ran, writes⟩ := run_perform_of_allowed allowed allocated
  exact ⟨t, ran, writes, Store.getMember_of_writes writes⟩

/-- Two objects, of which the second gets the first as its prototype, and is refused a truth value
in its place. -/
theorem member_writes_take_effect_of_refused_proto :
    let m := (Machine.start []).newObject.2.newObject.2
    let ws : List MemberWrite := [⟨⟨0⟩, "x", .int 1, 1⟩, ⟨⟨1⟩, "proto", .object ⟨0⟩, 2⟩,
      ⟨⟨1⟩, "proto", .bool true, 3⟩, ⟨⟨0⟩, "x", .int 2, 4⟩]
    (∀ o, m.store.object o = .empty) ∧ (∀ w ∈ ws, w.object.index < m.store.objects.size) ∧
      ∃ after, (performAll ws).run m = .ok () after ∧
        after.store.own? ⟨0⟩ "x" = some (.int 2) ∧ after.store.protoValue ⟨1⟩ = .object ⟨0⟩ := by
  intro m ws
  have empty : ∀ o, m.store.object o = .empty := by
    intro o
    match o with
    | ⟨0⟩ | ⟨1⟩ => rfl
    | ⟨i + 2⟩ => exact Store.object_of_size_le (Nat.le_add_left 2 i)
  have known : ∀ w ∈ ws, w.object.index < m.store.objects.size := by
    have size : m.store.objects.size = 2 := rfl
    rw [size]
    decide
  obtain ⟨after, ran, reflects, -⟩ := member_writes_take_effect empty known
  refine ⟨empty, known, after, ran, ?_, ?_⟩
  · rw [reflects.field ⟨0⟩ "x" (by decide)]
    rfl
  · rw [reflects.proto ⟨1⟩]
    rfl

end Protoscript

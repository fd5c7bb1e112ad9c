import Mathlib.Data.Finset.Card
import Protoscript.Prototype

/-! # Chains of prototypes

The chain of an object is the object itself, its prototype, the prototype of that, and so on; it may
run into itself.  `findField_eq_some_iff`: a search finds what the first object of the chain has
that has the field.  That object is reached before the chain repeats one, so in fewer steps than
there are objects, and a search of more steps finds no more (`findField_of_size_le`). -/

set_option autoImplicit false

namespace Protoscript

namespace Store

variable (s : Store)

/-- The object that the chain from `o` reaches in `n` steps, if it goes on that far. -/
def ancestor? : Nat → ObjectId → Option ObjectId
  | 0, o => some o
  | n + 1, o => (s.object o).proto.bind (ancestor? n)

/-- The own field `name` of an object. -/
def own? (o : ObjectId) (name : String) : Option Value := (s.object o).fields.get? name

/-- The first object of the chain from `o` that has the field `name` is reached in `n` steps, and
holds `v` there. -/
structure FirstAt (name : String) (o : ObjectId) (n : Nat) (v : Value) : Prop where
  has : ∃ p, s.ancestor? n o = some p ∧ s.own? p name = some v
  first : ∀ k < n, ∀ p, s.ancestor? k o = some p → s.own? p name = none

variable {s} {name : String} {o : ObjectId} {v : Value}

theorem ancestor?_add (k n : Nat) (o : ObjectId) :
    s.ancestor? (k + n) o = (s.ancestor? k o).bind (s.ancestor? n) := by
  induction k generalizing o with
  | zero => rw [Nat.zero_add]; rfl
  | succ k ih =>
    rw [Nat.succ_add, ancestor?, ancestor?]
    cases (s.object o).proto with
    | none => rfl
    | some p => exact ih p

theorem allocated_of_own? (has : s.own? o name = some v) : o.index < s.objects.size := by
  apply Nat.lt_of_not_le
  intro missing
  rw [own?, object_of_size_le missing, Object.empty, Bindings.get?_empty] at has
  cases has

theorem allocated_of_proto {p : ObjectId} (linked : (s.object o).proto = some p) :
    o.index < s.objects.size := by
  apply Nat.lt_of_not_le
  intro missing
  rw [object_of_size_le missing] at linked
  cases linked

theorem firstAt_zero_iff : s.FirstAt name o 0 v ↔ s.own? o name = some v := by
  constructor
  · intro found
    obtain ⟨⟨p, same, has⟩, -⟩ := found
    cases same
    exact has
  · intro has
    refine ⟨⟨o, rfl, has⟩, ?_⟩
    intro k less
    omega

theorem firstAt_succ_iff {n : Nat} : s.FirstAt name o (n + 1) v ↔
    s.own? o name = none ∧ ∃ p, (s.object o).proto = some p ∧ s.FirstAt name p n v := by
  constructor
  · intro found
    obtain ⟨⟨q, reached, has⟩, first⟩ := found
    refine ⟨first 0 (by omega) o rfl, ?_⟩
    obtain ⟨p, linked, reached⟩ := Option.bind_eq_some_iff.mp reached
    refine ⟨p, linked, ⟨q, reached, has⟩, ?_⟩
    intro k less r earlier
    refine first (k + 1) (by omega) r ?_
    rw [ancestor?, linked]
    exact earlier
  · intro found
    obtain ⟨none, p, linked, ⟨q, reached, has⟩, first⟩ := found
    refine ⟨⟨q, ?_, has⟩, ?_⟩
    · rw [ancestor?, linked]
      exact reached
    · intro k less r earlier
      cases k with
      | zero =>
        cases earlier
        exact none
      | succ k =>
        rw [ancestor?, linked] at earlier
        exact first k (by omega) r earlier

/-- A search finds the field of the first object of the chain that has it, if it goes on so far. -/
theorem findField_eq_some_iff {steps : Nat} :
    s.findField name steps o = some v ↔ ∃ n < steps, s.FirstAt name o n v := by
  induction steps generalizing o with
  | zero =>
    constructor
    · exact nofun
    · intro found
      obtain ⟨n, less, -⟩ := found
      omega
  | succ steps ih =>
    have cut : (∃ n < steps + 1, s.FirstAt name o n v) ↔ s.own? o name = some v ∨
        s.own? o name = none ∧ ∃ p, (s.object o).proto = some p ∧
          ∃ n < steps, s.FirstAt name p n v := by
      constructor
      · intro searched
        obtain ⟨n, less, found⟩ := searched
        cases n with
        | zero => exact .inl (firstAt_zero_iff.mp found)
        | succ n =>
          obtain ⟨none, p, linked, found⟩ := firstAt_succ_iff.mp found
          exact .inr ⟨none, p, linked, n, by omega, found⟩
      · intro searched
        rcases searched with has | ⟨none, p, linked, n, less, found⟩
        · exact ⟨0, by omega, firstAt_zero_iff.mpr has⟩
        · exact ⟨n + 1, by omega, firstAt_succ_iff.mpr ⟨none, p, linked, found⟩⟩
    rw [cut, findField, ← own?]
    cases own : s.own? o name with
    | some w => simp
    | none =>
      cases linked : (s.object o).proto with
      | none => simp
      | some p => simpa using ih

/-- Before it reaches the first object with the field, a chain repeats no object: from one that it
came through twice, it would have reached the field earlier. -/
theorem FirstAt.ancestor?_injOn {n : Nat} (found : s.FirstAt name o n v) :
    Set.InjOn (fun k => s.ancestor? k o) (Finset.range (n + 1)) := by
  have never : ∀ i j, i < j → j ≤ n → s.ancestor? i o ≠ s.ancestor? j o := by
    intro i j less most same
    obtain ⟨p, reached, has⟩ := found.has
    have shorter : s.ancestor? (i + (n - j)) o = some p := by
      rw [ancestor?_add, same, ← ancestor?_add, Nat.add_sub_cancel' most, reached]
    have own := found.first (i + (n - j)) (by omega) p shorter
    rw [has] at own
    cases own
  intro i within j within' same
  rw [Finset.mem_coe, Finset.mem_range] at within within'
  by_contra other
  by_cases less : i < j
  · exact never i j less (by omega) same
  · exact never j i (by omega) (by omega) same.symm

theorem FirstAt.exists_allocated {n k : Nat} (found : s.FirstAt name o n v) (most : k ≤ n) :
    ∃ p, s.ancestor? k o = some p ∧ p.index < s.objects.size := by
  obtain ⟨q, reached, has⟩ := found.has
  rw [← Nat.add_sub_cancel' most, ancestor?_add] at reached
  obtain ⟨p, earlier, rest⟩ := Option.bind_eq_some_iff.mp reached
  refine ⟨p, earlier, ?_⟩
  cases left : n - k with
  | zero =>
    rw [left] at rest
    cases rest
    exact allocated_of_own? has
  | succ m =>
    rw [left, ancestor?] at rest
    obtain ⟨r, linked, -⟩ := Option.bind_eq_some_iff.mp rest
    exact allocated_of_proto linked

/-- A chain comes through at most as many different objects of the store as it holds. -/
theorem le_size_of_injOn {n : Nat}
    (allocated : ∀ k < n, ∃ p, s.ancestor? k o = some p ∧ p.index < s.objects.size)
    (distinct : Set.InjOn (fun k => s.ancestor? k o) (Finset.range n)) : n ≤ s.objects.size := by
  let place (k : Nat) : Nat := ((s.ancestor? k o).map ObjectId.index).getD 0
  have placed : ∀ k ∈ Finset.range n, place k ∈ Finset.range s.objects.size := by
    intro k within
    obtain ⟨p, reached, known⟩ := allocated k (Finset.mem_range.mp within)
    simpa [place, reached] using known
  have apart : Set.InjOn place (Finset.range n) := by
    intro i within j within' same
    obtain ⟨⟨p⟩, reached, -⟩ := allocated i (Finset.mem_range.mp (Finset.mem_coe.mp within))
    obtain ⟨⟨q⟩, reached', -⟩ := allocated j (Finset.mem_range.mp (Finset.mem_coe.mp within'))
    have equal : p = q := by simpa [place, reached, reached'] using same
    refine distinct within within' ?_
    dsimp only
    rw [reached, reached', equal]
  have counted := Finset.card_le_card_of_injOn place placed apart
  rwa [Finset.card_range, Finset.card_range] at counted

theorem FirstAt.lt_size {n : Nat} (found : s.FirstAt name o n v) : n < s.objects.size :=
  le_size_of_injOn (fun _ within => found.exists_allocated (Nat.le_of_lt_succ within))
    found.ancestor?_injOn

/-- A search of more steps than there are objects finds no more. -/
theorem findField_of_size_le {steps : Nat} (enough : s.objects.size ≤ steps) :
    s.findField name steps o = s.findField name s.objects.size o := by
  ext v
  rw [findField_eq_some_iff, findField_eq_some_iff]
  constructor
  · intro searched
    obtain ⟨n, -, found⟩ := searched
    exact ⟨n, found.lt_size, found⟩
  · intro searched
    obtain ⟨n, less, found⟩ := searched
    exact ⟨n, Nat.lt_of_lt_of_le less enough, found⟩

/-- A member that is not the prototype is what the first object of the chain that has it has. -/
theorem getMember_eq_some_iff (field : name ≠ protoName) :
    s.getMember o name = some v ↔ ∃ n, s.FirstAt name o n v := by
  rw [getMember, if_neg field, findField_eq_some_iff]
  constructor
  · intro searched
    obtain ⟨n, -, found⟩ := searched
    exact ⟨n, found⟩
  · intro searched
    obtain ⟨n, found⟩ := searched
    exact ⟨n, found.lt_size, found⟩

end Store

end Protoscript

import Protoscript.Proofs.PrototypeChain

/-! # The search for a member

`Searches` is a search along a chain of prototypes that remembers the objects it has visited and
gives up at one that it comes to again.  It ends on every store, be there links from an object to
itself, rings or tails that run into a ring, and it ends with what reading the member gives.  That
it gives up loses nothing: `member_search_exact`. -/

set_option autoImplicit false

namespace Protoscript

namespace Store

/-- A search for the field `name` that has visited some objects, is at the next one now, and ends
with this result. -/
inductive Searches (s : Store) (name : String) :
    Set ObjectId → ObjectId → Option Value → Prop
  | again {visited : Set ObjectId} {o : ObjectId} (seen : o ∈ visited) :
    Searches s name visited o none
  | found {visited : Set ObjectId} {o : ObjectId} {v : Value} (new : o ∉ visited)
      (has : s.own? o name = some v) : Searches s name visited o (some v)
  | last {visited : Set ObjectId} {o : ObjectId} (new : o ∉ visited)
      (lacks : s.own? o name = none) (ends : (s.object o).proto = none) :
    Searches s name visited o none
  | next {visited : Set ObjectId} {o p : ObjectId} {result : Option Value} (new : o ∉ visited)
      (lacks : s.own? o name = none) (linked : (s.object o).proto = some p)
      (rest : Searches s name (insert o visited) p result) : Searches s name visited o result

/-- A search that started at `start` has come to `o` in `n` steps: the objects before are those that
it has visited, all different, and none of them has the field. -/
structure Trail (s : Store) (name : String) (start : ObjectId) (n : Nat) (visited : Set ObjectId)
    (o : ObjectId) : Prop where
  reached : s.ancestor? n start = some o
  visited_iff : ∀ p, p ∈ visited ↔ ∃ k < n, s.ancestor? k start = some p
  lacks : ∀ k < n, ∀ p, s.ancestor? k start = some p → s.own? p name = none
  distinct : Set.InjOn (fun k => s.ancestor? k start) (Finset.range n)

variable {s : Store} {name : String} {start o p : ObjectId} {v : Value} {n : Nat}
  {visited : Set ObjectId}

namespace Trail

theorem begin (s : Store) (name : String) (start : ObjectId) : s.Trail name start 0 ∅ start where
  reached := rfl
  visited_iff p := by simp
  lacks k less := absurd less (Nat.not_lt_zero k)
  distinct := by simp

variable (trail : s.Trail name start n visited o)

include trail

/-- An object that has not been visited is a new one on the trail. -/
theorem step (new : o ∉ visited) (lacks : s.own? o name = none)
    (linked : (s.object o).proto = some p) : s.Trail name start (n + 1) (insert o visited) p where
  reached := by
    rw [ancestor?_add, trail.reached, Option.bind_some, ancestor?, linked]
    rfl
  visited_iff q := by
    rw [Set.mem_insert_iff, trail.visited_iff]
    constructor
    · intro among
      rcases among with rfl | ⟨k, less, reached⟩
      · exact ⟨n, Nat.lt_succ_self n, trail.reached⟩
      · exact ⟨k, Nat.lt_succ_of_lt less, reached⟩
    · intro among
      obtain ⟨k, less, reached⟩ := among
      rcases Nat.lt_succ_iff_lt_or_eq.mp less with less | rfl
      · exact .inr ⟨k, less, reached⟩
      · rw [trail.reached] at reached
        cases reached
        exact .inl rfl
  lacks k less q reached := by
    rcases Nat.lt_succ_iff_lt_or_eq.mp less with less | rfl
    · exact trail.lacks k less q reached
    · rw [trail.reached] at reached
      cases reached
      exact lacks
  distinct := by
    rw [Finset.range_add_one, Finset.coe_insert, Set.injOn_insert (by simp)]
    refine ⟨trail.distinct, ?_⟩
    intro repeated
    obtain ⟨k, within, same⟩ := repeated
    have less := Finset.mem_range.mp (Finset.mem_coe.mp within)
    exact new ((trail.visited_iff o).mpr ⟨k, less, same.trans trail.reached⟩)

theorem le_size : n ≤ s.objects.size := by
  refine le_size_of_injOn ?_ trail.distinct
  intro k within
  have split : n = k + (n - k - 1 + 1) := by omega
  have further := trail.reached
  rw [split, ancestor?_add] at further
  obtain ⟨p, reached, on⟩ := Option.bind_eq_some_iff.mp further
  obtain ⟨r, linked, -⟩ := Option.bind_eq_some_iff.mp on
  exact ⟨p, reached, allocated_of_proto linked⟩

/-- What is to be found on the chain is not behind the trail. -/
theorem le_of_firstAt {m : Nat} (found : s.FirstAt name start m v) : n ≤ m := by
  apply Nat.le_of_not_lt
  intro behind
  obtain ⟨p, reached, has⟩ := found.has
  rw [trail.lacks m behind p reached] at has
  cases has

/-- Back at an object that it has visited, the search has been all along the chain. -/
theorem not_firstAt_of_visited (seen : o ∈ visited) {m : Nat} : ¬ s.FirstAt name start m v := by
  intro found
  have ahead := trail.le_of_firstAt found
  obtain ⟨k, less, reached⟩ := (trail.visited_iff o).mp seen
  have same : k = n := found.ancestor?_injOn (by simp; omega) (by simp; omega)
    (reached.trans trail.reached.symm)
  omega

theorem not_firstAt_of_ends (lacks : s.own? o name = none) (ends : (s.object o).proto = none)
    {m : Nat} : ¬ s.FirstAt name start m v := by
  intro found
  have ahead := trail.le_of_firstAt found
  obtain ⟨p, reached, has⟩ := found.has
  rw [← Nat.add_sub_cancel' ahead, ancestor?_add, trail.reached, Option.bind_some] at reached
  cases left : m - n with
  | zero =>
    rw [left] at reached
    cases reached
    rw [lacks] at has
    cases has
  | succ further =>
    rw [left, ancestor?, ends] at reached
    cases reached

omit trail

/-- A trail leads on to what reading the member gives.  The induction is on the objects of the store
that the trail has not visited. -/
theorem searches (field : name ≠ protoName) (left : Nat) :
    ∀ {n visited o}, s.Trail name start n visited o → s.objects.size < n + left →
      s.Searches name visited o (s.getMember start name) := by
  induction left with
  | zero =>
    intro n visited o trail all
    have most := trail.le_size
    omega
  | succ left ih =>
    intro n visited o trail more
    have nothing (nowhere : ∀ m v, ¬ s.FirstAt name start m v) :
        s.getMember start name = none := by
      rw [Option.eq_none_iff_forall_ne_some]
      intro v read
      obtain ⟨m, found⟩ := (getMember_eq_some_iff field).mp read
      exact nowhere m v found
    by_cases seen : o ∈ visited
    · rw [nothing fun m v => trail.not_firstAt_of_visited seen]
      exact .again seen
    · cases own : s.own? o name with
      | some v =>
        have found : s.FirstAt name start n v := ⟨⟨o, trail.reached, own⟩, trail.lacks⟩
        rw [(getMember_eq_some_iff field).mpr ⟨n, found⟩]
        exact .found seen own
      | none =>
        cases linked : (s.object o).proto with
        | none =>
          rw [nothing fun m v => trail.not_firstAt_of_ends own linked]
          exact .last seen own linked
        | some p => exact .next seen own linked (ih (trail.step seen own linked) (by omega))

end Trail

/-- A search ends in one way only. -/
theorem Searches.unique {r r' : Option Value} (search : s.Searches name visited o r)
    (other : s.Searches name visited o r') : r = r' := by
  induction search with
  | again seen =>
    cases other with
    | again => rfl
    | found new | last new | next new => exact absurd seen new
  | found new has =>
    cases other with
    | again seen => exact absurd seen new
    | found _ has' => rw [← has, has']
    | last _ lacks | next _ lacks =>
      rw [has] at lacks
      cases lacks
  | last new lacks ends =>
    cases other with
    | again | last => rfl
    | found _ has =>
      rw [lacks] at has
      cases has
    | next _ _ linked =>
      rw [ends] at linked
      cases linked
  | next new lacks linked _ ih =>
    cases other with
    | again seen => exact absurd seen new
    | found _ has =>
      rw [lacks] at has
      cases has
    | last _ _ ends =>
      rw [linked] at ends
      cases ends
    | next _ _ linked' rest =>
      rw [linked] at linked'
      cases linked'
      exact ih rest

theorem getMember_eq_none_iff (field : name ≠ protoName) :
    s.getMember o name = none ↔ ∀ n p, s.ancestor? n o = some p → s.own? p name = none := by
  rw [Option.eq_none_iff_forall_ne_some]
  constructor
  · intro missing n
    -- A later object with the field would make one up to it the first with it.
    induction n using Nat.strongRecOn with
    | ind n earlier =>
      intro p reached
      rw [Option.eq_none_iff_forall_ne_some]
      intro v has
      exact missing v ((getMember_eq_some_iff field).mpr ⟨n, ⟨p, reached, has⟩, earlier⟩)
  · intro missing v read
    obtain ⟨n, ⟨p, reached, has⟩, -⟩ := (getMember_eq_some_iff field).mp read
    rw [missing n p reached] at has
    cases has

variable (s o) in
/-- On every store, the search that gives up at an object it has visited ends, and reading a member
gives what it ends with.  That is `v` exactly if the first object of the chain that has the field
holds `v` there, and nothing exactly if no object of the chain, however far, has the field. -/
theorem member_search_exact (field : name ≠ protoName) :
    (∀ result, s.Searches name ∅ o result ↔ s.getMember o name = result) ∧
    (∀ v, s.getMember o name = some v ↔ ∃ n, s.FirstAt name o n v) ∧
    (s.getMember o name = none ↔ ∀ n p, s.ancestor? n o = some p → s.own? p name = none) := by
  have search : s.Searches name ∅ o (s.getMember o name) :=
    Trail.searches field (s.objects.size + 1) (.begin s name o) (by omega)
  refine ⟨?_, fun v => getMember_eq_some_iff field, getMember_eq_none_iff field⟩
  intro result
  constructor
  · intro other
    exact search.unique other
  · intro same
    rw [← same]
    exact search

/-- The chain of the first object runs into a ring of two. -/
def ring : Store :=
  let objects := Store.empty.newObject.2.newObject.2.newObject.2
  ((objects.setProto ⟨0⟩ (some ⟨1⟩)).setProto ⟨1⟩ (some ⟨2⟩)).setProto ⟨2⟩ (some ⟨1⟩)

theorem member_search_exact_of_ring :
    "x" ≠ protoName ∧ ring.Searches "x" ∅ ⟨0⟩ none ∧
      ∀ n p, ring.ancestor? n ⟨0⟩ = some p → ring.own? p "x" = none := by
  have field : "x" ≠ protoName := by decide
  have missing : ring.getMember ⟨0⟩ "x" = none := by with_unfolding_all rfl
  obtain ⟨searched, -, nowhere⟩ := member_search_exact ring ⟨0⟩ field
  exact ⟨field, (searched none).mpr missing, nowhere.mp missing⟩

end Store

end Protoscript

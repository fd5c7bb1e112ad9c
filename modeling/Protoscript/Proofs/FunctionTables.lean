import Mathlib.Algebra.BigOperators.Group.Finset.Piecewise
import Mathlib.Data.List.Forall2
import Protoscript.FunctionTable

/-! # What function tables hold

A table made of a list of definitions holds their functions and no others, each under its own name
and number of parameters (`Holds`).  The overloads of a name come in the order of their numbers of
parameters; so tables whose look-ups are related have related lists of overloads.  A function that
is taken in makes a table one larger. -/

set_option autoImplicit false

namespace Protoscript

/-- Definitions that are related one by one make functions that are, with the same identities. -/
theorem Function.forall₂_ofDefinitions {R : Definition → Definition → Prop}
    {ds es : List Definition} (related : List.Forall₂ R ds es) :
    List.Forall₂ (fun f g : Function => f.id = g.id ∧ R f.toDefinition g.toDefinition)
      (ofDefinitions ds) (ofDefinitions es) := by
  have placed : ∀ place, List.Forall₂
      (fun f g : Function => f.id = g.id ∧ R f.toDefinition g.toDefinition)
      ((ds.zipIdx place).map fun entry => ⟨entry.1, ⟨entry.2⟩⟩)
      ((es.zipIdx place).map fun entry => ⟨entry.1, ⟨entry.2⟩⟩) := by
    induction related with
    | nil => exact fun _ => .nil
    | cons head _ ih => exact fun place => .cons ⟨rfl, head⟩ (ih (place + 1))
  exact placed 0

namespace FunctionTable

variable {t : FunctionTable} {name : String} {arity : Nat} {f : Function}

theorem mem_overloads_iff : f ∈ t.overloads name ↔ ∃ arity, t.get? name arity = some f := by
  rw [overloads, List.mem_map]
  constructor
  · rintro ⟨⟨arity, f⟩, among, rfl⟩
    exact ⟨arity, Std.ExtTreeMap.mem_toList_iff_getElem?_eq_some.mp among⟩
  · rintro ⟨arity, found⟩
    exact ⟨(arity, f), Std.ExtTreeMap.mem_toList_iff_getElem?_eq_some.mpr found, rfl⟩

theorem mem_overloads (found : t.get? name arity = some f) : f ∈ t.overloads name :=
  mem_overloads_iff.mpr ⟨arity, found⟩

theorem get?_collect {fs : List Function} (found : (t.collect fs).1.get? name arity = some f) :
    t.get? name arity = some f ∨ f ∈ fs ∧ f.name = name ∧ f.arity = arity := by
  induction fs generalizing t with
  | nil => exact .inl found
  | cons g fs ih =>
    have later : ∀ {u : FunctionTable}, (u.collect fs).1.get? name arity = some f →
        u.get? name arity = some f ∨ f ∈ g :: fs ∧ f.name = name ∧ f.arity = arity :=
      fun found => (ih found).imp_right fun ⟨among, named⟩ => ⟨List.mem_cons_of_mem g among, named⟩
    unfold collect at found
    rcases t.insert_cases g with ⟨grown, added⟩ | ⟨existing, -, refused⟩
    · rw [added] at found
      rcases later found with old | new
      · rw [get?_of_insert added] at old
        split at old
        · next here =>
          cases old
          exact .inr ⟨List.mem_cons_self, here.1.symm, here.2.symm⟩
        · exact .inl old
      · exact .inr new
    · rw [refused] at found
      exact later found

theorem collected_of_ofDefinitions {ds : List Definition} (made : ofDefinitions ds = .ok t) :
    collected ds = (t, []) := by
  unfold ofDefinitions at made
  split at made
  · next u whole =>
    cases made
    exact whole
  · cases made

theorem mem_of_get? {ds : List Definition} (made : ofDefinitions ds = .ok t)
    (found : t.get? name arity = some f) :
    f ∈ Function.ofDefinitions ds ∧ f.name = name ∧ f.arity = arity := by
  have found : (collected ds).1.get? name arity = some f := by
    rwa [collected_of_ofDefinitions made]
  rcases get?_collect found with early | among
  · rw [get?_empty] at early
    cases early
  · exact among

/-- A function of the table is one of the program, and it is found under its own signature. -/
theorem mem_of_mem_overloads {ds : List Definition} (made : ofDefinitions ds = .ok t)
    (among : f ∈ t.overloads name) :
    f ∈ Function.ofDefinitions ds ∧ t.get? f.name f.arity = some f := by
  obtain ⟨arity, found⟩ := mem_overloads_iff.mp among
  obtain ⟨given, rfl, rfl⟩ := mem_of_get? made found
  exact ⟨given, found⟩

/-! ## Overloads in order -/

/-- Lists in strictly ascending order of their keys, with the same keys and related entries. -/
theorem forall₂_of_ascending {α β : Type} {R : α → β → Prop} {as : List (Nat × α)}
    {bs : List (Nat × β)} (left : as.Pairwise fun a b => a.1 < b.1)
    (right : bs.Pairwise fun a b => a.1 < b.1)
    (there : ∀ a ∈ as, ∃ b ∈ bs, a.1 = b.1 ∧ R a.2 b.2) (back : ∀ b ∈ bs, ∃ a ∈ as, a.1 = b.1) :
    List.Forall₂ R (as.map Prod.snd) (bs.map Prod.snd) := by
  induction as generalizing bs with
  | nil =>
    cases bs with
    | nil => exact .nil
    | cons b _ =>
      obtain ⟨_, among, -⟩ := back b List.mem_cons_self
      cases among
  | cons a as ih =>
    obtain ⟨b', among, key, related⟩ := there a List.mem_cons_self
    cases bs with
    | nil => cases among
    | cons b bs =>
      obtain ⟨above, rest⟩ := List.pairwise_cons.mp left
      obtain ⟨above', rest'⟩ := List.pairwise_cons.mp right
      obtain ⟨a', among', key'⟩ := back b List.mem_cons_self
      -- Neither first key can be below the other, for both lists have both.
      have first : a.1 = b.1 := by
        rcases List.mem_cons.mp among with rfl | later
        · exact key
        · rcases List.mem_cons.mp among' with rfl | later'
          · exact key'
          · have below := above a' later'
            have below' := above' b' later
            omega
      rcases List.mem_cons.mp among with rfl | later
      · refine .cons related (ih rest rest' ?_ ?_)
        · intro c among
          obtain ⟨d, found, key, related⟩ := there c (List.mem_cons_of_mem a among)
          have below := above c among
          rcases List.mem_cons.mp found with rfl | later
          · omega
          · exact ⟨d, later, key, related⟩
        · intro d among
          obtain ⟨c, found, key⟩ := back d (List.mem_cons_of_mem _ among)
          have below := above' d among
          rcases List.mem_cons.mp found with rfl | later
          · omega
          · exact ⟨c, later, key⟩
      · have below := above' b' later
        omega

theorem pairwise_ofName (t : FunctionTable) (name : String) :
    (t.ofName name).toList.Pairwise fun a b => a.1 < b.1 :=
  Std.ExtTreeMap.ordered_keys_toList.imp fun below => Nat.compare_eq_lt.mp below

theorem forall₂_overloads {R : Function → Function → Prop} {t u : FunctionTable} {name : String}
    (related : ∀ arity, Option.Rel R (t.get? name arity) (u.get? name arity)) :
    List.Forall₂ R (t.overloads name) (u.overloads name) := by
  apply forall₂_of_ascending (pairwise_ofName t name) (pairwise_ofName u name)
  · rintro ⟨arity, f⟩ among
    have found : t.get? name arity = some f :=
      Std.ExtTreeMap.mem_toList_iff_getElem?_eq_some.mp among
    have entry := related arity
    rw [found] at entry
    generalize found' : u.get? name arity = g' at entry
    cases entry with
    | @some _ g' related =>
      exact ⟨(arity, g'), Std.ExtTreeMap.mem_toList_iff_getElem?_eq_some.mpr found', rfl, related⟩
  · rintro ⟨arity, g⟩ among
    have found : u.get? name arity = some g :=
      Std.ExtTreeMap.mem_toList_iff_getElem?_eq_some.mp among
    have entry := related arity
    rw [found] at entry
    generalize found' : t.get? name arity = f' at entry
    cases entry with
    | @some f' _ _ =>
      exact ⟨(arity, f'), Std.ExtTreeMap.mem_toList_iff_getElem?_eq_some.mpr found', rfl⟩

/-! ## Names and sizes -/

theorem contains_of_insert {u : FunctionTable} (added : t.insert f = (.ok (), u)) (other : String) :
    u.contains other = (f.name = other || t.contains other) := by
  rw [eq_of_insert added, contains, contains, Std.ExtTreeMap.contains_insert, beq_eq_decide]
  simp only [Std.LawfulEqCmp.compare_eq_iff_eq]

theorem mem_names_iff : name ∈ t.names ↔ t.contains name = true :=
  Std.ExtTreeMap.mem_keys

theorem isEmpty_iff : t.isEmpty = true ↔ ∀ name, t.contains name = false :=
  Std.ExtTreeMap.isEmpty_iff.trans Std.ExtTreeMap.eq_empty_iff_forall_contains

theorem size_eq_sum (t : FunctionTable) :
    t.size = ∑ name ∈ t.names.toFinset, (t.ofName name).size := by
  have entries : t.byName.toList.map (fun entry => entry.2.size) =
      t.names.map fun name => (t.ofName name).size := by
    rw [names, ← Std.ExtTreeMap.map_fst_toList_eq_keys, List.map_map]
    refine List.map_congr_left ?_
    rintro ⟨name, inner⟩ among
    have found : t.byName[name]? = some inner :=
      Std.ExtTreeMap.mem_toList_iff_getElem?_eq_some.mp among
    dsimp only [Function.comp_apply]
    rw [ofName, Std.ExtTreeMap.getD_eq_getD_getElem?, found, Option.getD_some]
  have distinct : t.names.Nodup := Std.ExtTreeMap.nodup_keys
  have counted : t.size = (t.byName.toList.map fun entry => entry.2.size).sum := by
    rw [size, Std.ExtTreeMap.foldl_eq_foldl_toList, List.sum_eq_foldl, List.foldl_map]
  rw [counted, entries, List.sum_toFinset _ distinct]

/-- The sum may run over names without functions too. -/
theorem size_eq_sum_of_subset {s : Finset String} (all : t.names.toFinset ⊆ s) :
    t.size = ∑ name ∈ s, (t.ofName name).size := by
  rw [size_eq_sum]
  refine Finset.sum_subset all ?_
  intro name _ absent
  rw [List.mem_toFinset, mem_names_iff, Bool.not_eq_true] at absent
  rw [ofName, Std.ExtTreeMap.getD_eq_fallback_of_contains_eq_false absent]
  rfl

theorem size_of_insert {u : FunctionTable} (added : t.insert f = (.ok (), u)) :
    u.size = t.size + 1 := by
  have names : ∀ name, name ∈ u.names.toFinset ↔ f.name = name ∨ name ∈ t.names.toFinset := by
    intro name
    simp only [List.mem_toFinset, mem_names_iff, contains_of_insert added, Bool.or_eq_true,
      decide_eq_true_eq]
  have free : ¬ (t.ofName f.name).contains f.arity = true := by
    have free := get?_eq_none_of_insert added
    rwa [get?, getElem?_eq_none_iff] at free
  have entry : ∀ name, (u.ofName name).size =
      (t.ofName name).size + if name = f.name then 1 else 0 := by
    intro name
    rw [ofName_of_insert added]
    split
    · next here => rw [Std.ExtTreeMap.size_insert, if_neg free, here]
    · rfl
  rw [size_eq_sum u, size_eq_sum_of_subset fun name among => (names name).mpr (.inr among)]
  simp only [entry]
  rw [Finset.sum_add_distrib, Finset.sum_ite_eq', if_pos ((names f.name).mpr (.inl rfl))]

/-! ## Tables by their content -/

/-- The table holds the functions of the list, each under its own signature, and no others. -/
structure Holds (t : FunctionTable) (fs : List Function) : Prop where
  get?_iff : ∀ name arity f, t.get? name arity = some f ↔ f ∈ fs ∧ f.signature = (name, arity)
  contains_iff : ∀ name, t.contains name = true ↔ ∃ f ∈ fs, f.name = name
  size : t.size = fs.length

namespace Holds

variable {fs gs : List Function}

theorem perm (holds : t.Holds fs) (perm : gs.Perm fs) : t.Holds gs where
  get?_iff name arity f := by rw [holds.get?_iff, perm.mem_iff]
  contains_iff name := by simp only [holds.contains_iff, perm.mem_iff]
  size := by rw [holds.size, perm.length_eq]

theorem empty : FunctionTable.empty.Holds [] where
  get?_iff name arity f := by simp [get?_empty]
  contains_iff name := by simp [contains, FunctionTable.empty]
  size := rfl

/-- A function of a fresh signature is taken in. -/
theorem insert (holds : t.Holds fs) (fresh : f.signature ∉ fs.map (·.signature)) :
    ∃ u, t.insert f = (.ok (), u) ∧ u.Holds (f :: fs) := by
  have free : t.get? f.name f.arity = none := by
    rw [Option.eq_none_iff_forall_ne_some]
    intro g found
    obtain ⟨among, signed⟩ := (holds.get?_iff _ _ _).mp found
    exact fresh (List.mem_map.mpr ⟨g, among, signed⟩)
  have added := insert_of_get?_eq_none free
  refine ⟨_, added, ?_, ?_, ?_⟩
  · intro name arity g
    rw [get?_of_insert added, List.mem_cons]
    split
    · next here =>
      obtain ⟨rfl, rfl⟩ := here
      constructor
      · intro same
        obtain rfl : f = g := Option.some.inj same
        exact ⟨.inl rfl, rfl⟩
      · rintro ⟨rfl | among, signed⟩
        · rfl
        · exact absurd (List.mem_map.mpr ⟨g, among, signed⟩) fresh
    · next elsewhere =>
      rw [holds.get?_iff]
      constructor
      · exact fun ⟨among, signed⟩ => ⟨.inr among, signed⟩
      · rintro ⟨rfl | among, signed⟩
        · rw [Definition.signature, Prod.mk.injEq] at signed
          exact absurd ⟨signed.1.symm, signed.2.symm⟩ elsewhere
        · exact ⟨among, signed⟩
  · intro name
    rw [contains_of_insert added, Bool.or_eq_true, decide_eq_true_eq, holds.contains_iff,
      List.exists_mem_cons_iff]
  · rw [size_of_insert added, holds.size, List.length_cons]

theorem collect (holds : t.Holds fs) (distinct : ((gs ++ fs).map (·.signature)).Nodup) :
    ∃ u, t.collect gs = (u, []) ∧ u.Holds (gs ++ fs) := by
  induction gs generalizing t fs with
  | nil => exact ⟨t, rfl, holds⟩
  | cons g gs ih =>
    have swap : (gs ++ g :: fs).Perm (g :: gs ++ fs) := List.perm_middle
    have fresh : g.signature ∉ fs.map (·.signature) := by
      rw [List.cons_append, List.map_cons, List.map_append] at distinct
      have apart := (List.nodup_cons.mp distinct).1
      exact fun among => apart (List.mem_append_right _ among)
    obtain ⟨grown, added, holds⟩ := holds.insert fresh
    obtain ⟨u, collected, holds⟩ := ih holds ((swap.map _).nodup_iff.mpr distinct)
    refine ⟨u, ?_, holds.perm swap.symm⟩
    rw [FunctionTable.collect, added]
    exact collected

end Holds

/-- Definitions with distinct signatures make a table, which holds their functions. -/
theorem exists_ofDefinitions_eq_ok {ds : List Definition}
    (distinct : (ds.map Definition.signature).Nodup) :
    ∃ t, ofDefinitions ds = .ok t ∧ t.Holds (Function.ofDefinitions ds) := by
  rw [← Function.map_ofDefinitions, ← List.append_nil (Function.ofDefinitions ds)] at distinct
  obtain ⟨t, whole, holds⟩ := Holds.empty.collect distinct
  rw [List.append_nil] at holds
  refine ⟨t, ?_, holds⟩
  rw [ofDefinitions, collected, whole]

end FunctionTable

end Protoscript

import Mathlib.Data.Finset.Card
import Mathlib.Data.List.Infix
import Protoscript.Proofs.FunctionTables

/-! # Tables after insertions

What a table answers after functions were inserted in turn, refused ones included.  The first
function of a signature is the one that stays: `Answers` says so for every query, and the count is
that of the different signatures.  Each insertion makes an entry for a name before it is known
whether the function is taken in; that no entry stays without functions is an invariant (`Filled`),
and by it the queries that see only names agree with those that see functions.

A list of definitions makes a table just if no two of them share a signature.  If some do,
`redefinitions` are what is reported: one report for each definition that has one of its signature
before it, in the order of the list. -/

set_option autoImplicit false

namespace Protoscript

namespace Function

/-- The first of the functions with that name and that many parameters. -/
def first? (fs : List Function) (name : String) (arity : Nat) : Option Function :=
  fs.find? fun f => f.signature = (name, arity)

/-- The report on a function, if one of those before it has its signature. -/
def redefinition? (before : List Function) (f : Function) : Option Diagnostic :=
  (first? before f.name f.arity).map fun first =>
    ⟨.redefinition f.name f.arity first.position.line, f.position⟩

/-- The reports on a list of functions, each taken with those that stand before it. -/
def redefinitions (fs : List Function) : List Diagnostic :=
  (fs.inits.zip fs).filterMap fun entry => redefinition? entry.1 entry.2

variable {fs : List Function} {f : Function} {name : String} {arity : Nat}

theorem mem_of_first? (found : first? fs name arity = some f) :
    f ∈ fs ∧ f.signature = (name, arity) :=
  ⟨List.mem_of_find?_eq_some found, of_decide_eq_true (List.find?_some
    (p := fun f : Function => decide (f.signature = (name, arity))) found)⟩

theorem first?_eq_none_iff : first? fs f.name f.arity = none ↔
    f.signature ∉ fs.map (·.signature) := by
  rw [first?, List.find?_eq_none, List.mem_map, not_exists]
  simp only [decide_eq_true_eq, not_and]
  exact Iff.rfl

theorem first?_concat (fs : List Function) (f : Function) (name : String) (arity : Nat) :
    first? (fs ++ [f]) name arity =
      (first? fs name arity).or (if f.signature = (name, arity) then some f else none) := by
  rw [first?, List.find?_append, first?]
  by_cases here : f.signature = (name, arity) <;> simp [here]

end Function

namespace FunctionTable

open Protoscript.Function

/-- A new table after insertions in turn, whatever comes of each. -/
def ofInsertions (fs : List Function) : FunctionTable :=
  fs.foldl (fun t f => (t.insert f).2) empty

/-- The table answers every query as one into which the functions were inserted, of which those
come to nothing that have one of their signature before them. -/
structure Answers (t : FunctionTable) (fs : List Function) : Prop where
  get?_eq : ∀ name arity, t.get? name arity = first? fs name arity
  mem_overloads : ∀ name f, f ∈ t.overloads name ↔ first? fs name f.arity = some f
  ascending : ∀ name, (t.overloads name).Pairwise fun f g => f.arity < g.arity
  contains_iff : ∀ name, t.contains name = true ↔ t.overloads name ≠ []
  size_eq : t.size = (fs.map (·.signature)).toFinset.card
  isEmpty_iff : t.isEmpty = true ↔ t.size = 0

/-! ## Entries -/

/-- No name has an entry without functions. -/
def Filled (t : FunctionTable) : Prop := ∀ name, t.contains name = true → t.overloads name ≠ []

section

variable {t : FunctionTable} {name : String}

theorem filled_empty : empty.Filled := by
  intro name known
  rw [contains, empty, Std.ExtTreeMap.contains_empty] at known
  cases known

namespace Filled

variable (filled : t.Filled)

include filled

/-- The entry that an insertion makes has the new function, or an older one if that is refused. -/
theorem insert (f : Function) : (t.insert f).2.Filled := by
  rcases t.insert_cases f with ⟨u, added⟩ | ⟨existing, -, refused⟩
  · rw [added]
    intro name known
    by_cases here : name = f.name
    · subst here
      have found : u.get? f.name f.arity = some f := by
        rw [get?_of_insert added, if_pos ⟨rfl, rfl⟩]
      exact List.ne_nil_of_mem (mem_overloads found)
    · rw [contains_of_insert added, decide_eq_false (Ne.symm here), Bool.false_or] at known
      rw [overloads, ofName_of_insert added, if_neg here]
      exact filled name known
  · rw [refused]
    exact filled

theorem contains_iff (name : String) : t.contains name = true ↔ t.overloads name ≠ [] := by
  refine ⟨filled name, fun some => ?_⟩
  obtain ⟨f, among⟩ := List.exists_mem_of_ne_nil _ some
  obtain ⟨arity, found⟩ := mem_overloads_iff.mp among
  exact contains_of_get? found

theorem isEmpty_iff_size : t.isEmpty = true ↔ t.size = 0 := by
  rw [isEmpty_iff, size_eq_sum, Finset.sum_eq_zero_iff]
  simp only [List.mem_toFinset, mem_names_iff]
  constructor
  · intro none name known
    rw [none] at known
    cases known
  · intro hollow name
    rw [← Bool.not_eq_true]
    intro known
    apply filled name known
    rw [overloads, List.map_eq_nil_iff, ← List.length_eq_zero_iff, Std.ExtTreeMap.length_toList]
    exact hollow name known

end Filled

end

/-! ## Insertions in turn -/

section

variable {fs : List Function} {name : String} {arity : Nat} {f : Function}

theorem ofInsertions_concat (fs : List Function) (f : Function) :
    ofInsertions (fs ++ [f]) = ((ofInsertions fs).insert f).2 := by
  rw [ofInsertions, List.foldl_append]
  rfl

theorem filled_ofInsertions (fs : List Function) : (ofInsertions fs).Filled := by
  induction fs using List.reverseRecOn with
  | nil => exact filled_empty
  | append_singleton fs f ih =>
    rw [ofInsertions_concat]
    exact ih.insert f

theorem get?_insert (t : FunctionTable) (f : Function) (name : String) (arity : Nat) :
    (t.insert f).2.get? name arity =
      (t.get? name arity).or (if f.signature = (name, arity) then some f else none) := by
  by_cases here : f.signature = (name, arity)
  · obtain ⟨rfl, rfl⟩ := Prod.mk.inj here
    rw [if_pos here]
    rcases t.insert_cases f with ⟨u, added⟩ | ⟨existing, found, refused⟩
    · rw [added, get?_of_insert added, if_pos ⟨rfl, rfl⟩, get?_eq_none_of_insert added,
        Option.none_or]
    · rw [refused, found, Option.some_or]
  · rw [if_neg here, Option.or_none]
    rcases t.insert_cases f with ⟨u, added⟩ | ⟨existing, -, refused⟩
    · rw [added, get?_of_insert added, if_neg]
      exact fun same => here (Prod.ext same.1.symm same.2.symm)
    · rw [refused]

theorem get?_ofInsertions (fs : List Function) (name : String) (arity : Nat) :
    (ofInsertions fs).get? name arity = first? fs name arity := by
  induction fs using List.reverseRecOn with
  | nil => exact get?_empty name arity
  | append_singleton fs f ih => rw [ofInsertions_concat, get?_insert, ih, first?_concat]

/-- An insertion after others is refused just if one of them was of a function of the same
signature, and then the table is as it was. -/
theorem insert_ofInsertions (fs : List Function) (f : Function) :
    (ofInsertions fs).insert f = match first? fs f.name f.arity with
      | none => (.ok (), ofInsertions (fs ++ [f]))
      | some first => (.error first, ofInsertions fs) := by
  rw [ofInsertions_concat, ← get?_ofInsertions]
  rcases (ofInsertions fs).insert_cases f with ⟨u, added⟩ | ⟨existing, found, refused⟩
  · rw [get?_eq_none_of_insert added, added]
  · rw [found, refused]

theorem size_ofInsertions (fs : List Function) :
    (ofInsertions fs).size = (fs.map (·.signature)).toFinset.card := by
  induction fs using List.reverseRecOn with
  | nil => rfl
  | append_singleton fs f ih =>
    have grown : ((fs ++ [f]).map (·.signature)).toFinset =
        Insert.insert f.signature (fs.map (·.signature)).toFinset := by
      rw [List.map_append, List.map_singleton, ← List.toFinset_cons]
      exact List.toFinset_eq_of_perm _ _ List.perm_append_comm
    have known : first? fs f.name f.arity = none ↔ f.signature ∉ fs.map (·.signature) :=
      first?_eq_none_iff
    rw [ofInsertions_concat, grown]
    rcases (ofInsertions fs).insert_cases f with ⟨u, added⟩ | ⟨existing, found, refused⟩
    · rw [← get?_ofInsertions, get?_eq_none_of_insert added] at known
      rw [added, size_of_insert added, ih,
        Finset.card_insert_of_notMem (mt List.mem_toFinset.mp (known.mp rfl))]
    · rw [← get?_ofInsertions, found] at known
      have repeated := not_not.mp (mt known.mpr (Option.some_ne_none existing))
      rw [refused, ih, Finset.insert_eq_of_mem (List.mem_toFinset.mpr repeated)]

theorem mem_overloads_ofInsertions :
    f ∈ (ofInsertions fs).overloads name ↔ first? fs name f.arity = some f := by
  rw [mem_overloads_iff]
  simp only [get?_ofInsertions]
  constructor
  · rintro ⟨arity, found⟩
    obtain ⟨-, signed⟩ := mem_of_first? found
    obtain ⟨-, rfl⟩ := Prod.mk.inj signed
    exact found
  · exact fun found => ⟨f.arity, found⟩

theorem pairwise_overloads_ofInsertions (fs : List Function) (name : String) :
    ((ofInsertions fs).overloads name).Pairwise fun f g => f.arity < g.arity := by
  rw [overloads, List.pairwise_map]
  have arity : ∀ entry ∈ ((ofInsertions fs).ofName name).toList, entry.2.arity = entry.1 := by
    rintro ⟨arity, f⟩ among
    have found : (ofInsertions fs).get? name arity = some f :=
      Std.ExtTreeMap.mem_toList_iff_getElem?_eq_some.mp among
    rw [get?_ofInsertions] at found
    exact (Prod.mk.inj (mem_of_first? found).2).2
  refine (pairwise_ofName _ name).imp_of_mem ?_
  intro left right among among' below
  rwa [arity left among, arity right among']

theorem answers_ofInsertions (fs : List Function) : (ofInsertions fs).Answers fs where
  get?_eq := get?_ofInsertions fs
  mem_overloads _ _ := mem_overloads_ofInsertions
  ascending := pairwise_overloads_ofInsertions fs
  contains_iff := (filled_ofInsertions fs).contains_iff
  size_eq := size_ofInsertions fs
  isEmpty_iff := (filled_ofInsertions fs).isEmpty_iff_size

/-! ## Lists of definitions -/

/-- What is reported on the functions of a list that stand behind others. -/
def redefinitionsAfter (seen fs : List Function) : List Diagnostic :=
  ((fs.inits.map (seen ++ ·)).zip fs).filterMap fun entry => redefinition? entry.1 entry.2

theorem redefinitionsAfter_cons (seen : List Function) (f : Function) (fs : List Function) :
    redefinitionsAfter seen (f :: fs) =
      (redefinition? seen f).toList ++ redefinitionsAfter (seen ++ [f]) fs := by
  have shifted : (fs.inits.map (f :: ·)).map (seen ++ ·) = fs.inits.map (seen ++ [f] ++ ·) := by
    rw [List.map_map]
    exact List.map_congr_left fun front _ => (List.append_assoc seen [f] front).symm
  rw [redefinitionsAfter, List.inits_cons, List.map_cons, List.append_nil, shifted,
    List.zip_cons_cons, List.filterMap_cons, redefinitionsAfter]
  dsimp only
  cases redefinition? seen f <;> rfl

theorem redefinitionsAfter_nil (fs : List Function) :
    redefinitionsAfter [] fs = redefinitions fs := by
  rw [redefinitionsAfter, redefinitions]
  simp only [List.nil_append, List.map_id']

/-- Functions collected after others give the table of all, and the reports on the later ones. -/
theorem collect_ofInsertions (seen fs : List Function) :
    (ofInsertions seen).collect fs = (ofInsertions (seen ++ fs), redefinitionsAfter seen fs) := by
  induction fs generalizing seen with
  | nil => rw [List.append_nil]; rfl
  | cons f fs ih =>
    have later := ih (seen ++ [f])
    rw [ofInsertions_concat, List.append_assoc, List.singleton_append] at later
    rw [collect, redefinitionsAfter_cons, redefinition?, ← get?_ofInsertions]
    rcases (ofInsertions seen).insert_cases f with ⟨u, added⟩ | ⟨existing, found, refused⟩
    · rw [added] at later
      rw [added, get?_eq_none_of_insert added]
      exact later
    · rw [refused] at later
      rw [refused, found]
      dsimp only
      rw [later]
      rfl

/-- Nothing is reported just if no function has the signature of one before it. -/
theorem redefinitionsAfter_eq_nil_iff (seen fs : List Function) :
    redefinitionsAfter seen fs = [] ↔
      (∀ f ∈ fs, f.signature ∉ seen.map (·.signature)) ∧ (fs.map (·.signature)).Nodup := by
  induction fs generalizing seen with
  | nil => simp [redefinitionsAfter]
  | cons f fs ih =>
    have here : (redefinition? seen f).toList = [] ↔ f.signature ∉ seen.map (·.signature) := by
      rw [redefinition?, Option.toList_eq_nil_iff, Option.map_eq_none_iff, first?_eq_none_iff]
    rw [redefinitionsAfter_cons, List.append_eq_nil_iff, here, ih, List.map_append,
      List.map_singleton, List.map_cons, List.nodup_cons, List.forall_mem_cons]
    constructor
    · rintro ⟨first, later, distinct⟩
      refine ⟨⟨first, fun g among old => later g among (List.mem_append_left _ old)⟩, ?_, distinct⟩
      intro again
      obtain ⟨g, among, same⟩ := List.mem_map.mp again
      exact later g among (List.mem_append_right _ (List.mem_singleton.mpr same))
    · rintro ⟨⟨first, later⟩, apart, distinct⟩
      refine ⟨first, fun g among earlier => ?_, distinct⟩
      rcases List.mem_append.mp earlier with old | new
      · exact later g among old
      · exact apart (List.mem_map.mpr ⟨g, among, List.mem_singleton.mp new⟩)

theorem redefinitions_eq_nil_iff (fs : List Function) :
    redefinitions fs = [] ↔ (fs.map (·.signature)).Nodup := by
  rw [← redefinitionsAfter_nil, redefinitionsAfter_eq_nil_iff]
  exact and_iff_right fun f _ => List.not_mem_nil

/-- The first of those before a function is the first of all. -/
theorem exists_first?_of_mem_redefinitions {report : Diagnostic}
    (reported : report ∈ redefinitions fs) :
    ∃ f ∈ fs, ∃ first, first? fs f.name f.arity = some first ∧
      report = ⟨.redefinition f.name f.arity first.position.line, f.position⟩ := by
  obtain ⟨⟨before, f⟩, among, made⟩ := List.mem_filterMap.mp reported
  obtain ⟨front, given⟩ := List.of_mem_zip among
  obtain ⟨first, found, rfl⟩ := Option.map_eq_some_iff.mp made
  exact ⟨f, given, first, ((List.mem_inits before fs).mp front).find?_eq_some found, rfl⟩

/-- A table answers every query as the functions say that were inserted into it, refused ones
included.  An insertion is refused just if a function of the signature was inserted before, and then
it gives the first of them and leaves the table as it is.  Definitions make a table just if their
signatures are all different; otherwise those that repeat one are reported. -/
theorem insertions_answered (fs : List Function) (ds : List Definition) :
    (ofInsertions fs).Answers fs ∧
    (∀ f, (ofInsertions fs).insert f = match first? fs f.name f.arity with
      | none => (.ok (), ofInsertions (fs ++ [f]))
      | some first => (.error first, ofInsertions fs)) ∧
    let all := Function.ofDefinitions ds
    ofDefinitions ds = (if (ds.map Definition.signature).Nodup then .ok (ofInsertions all)
      else .error (redefinitions all)) ∧
    ∀ report ∈ redefinitions all, report.code = .S003 ∧
      ∃ f ∈ all, ∃ first, first? all f.name f.arity = some first ∧
        report.position = f.position ∧
        report.message = "function `" ++ f.name ++ "` with " ++ toString f.arity ++
          " parameter(s) already defined at line " ++ toString first.position.line := by
  refine ⟨answers_ofInsertions fs, insert_ofInsertions fs, ?_, ?_⟩
  · have whole : collected ds =
        (ofInsertions (Function.ofDefinitions ds), redefinitions (Function.ofDefinitions ds)) := by
      rw [← redefinitionsAfter_nil]
      exact collect_ofInsertions [] (Function.ofDefinitions ds)
    rw [ofDefinitions, whole, ← Function.map_ofDefinitions]
    simp only [← redefinitions_eq_nil_iff]
    cases redefinitions (Function.ofDefinitions ds) with
    | nil => rfl
    | cons report reports => exact (if_neg (List.cons_ne_nil _ _)).symm
  · intro report reported
    obtain ⟨f, given, first, found, rfl⟩ := exists_first?_of_mem_redefinitions reported
    exact ⟨rfl, f, given, first, found, rfl, rfl⟩

/-- A definition in line 3 is reported that has the signature of the one in line 1, and to insert it
is refused with that one and leaves two functions. -/
theorem insertions_answered_of_repetition :
    let ds : List Definition :=
      [⟨"f", [], [], ⟨1, 1⟩⟩, ⟨"g", [], [], ⟨2, 1⟩⟩, ⟨"f", [], [], ⟨3, 1⟩⟩]
    let all := Function.ofDefinitions ds
    ¬ (ds.map Definition.signature).Nodup ∧ (ofInsertions all).size = 2 ∧
      (ofInsertions all).insert ⟨⟨"f", [], [], ⟨4, 1⟩⟩, ⟨3⟩⟩ =
        (.error ⟨⟨"f", [], [], ⟨1, 1⟩⟩, ⟨0⟩⟩, ofInsertions all) ∧
      ofDefinitions ds = .error [⟨.redefinition "f" 0 1, ⟨3, 1⟩⟩] := by
  intro ds all
  have repeated : ¬ (ds.map Definition.signature).Nodup := by decide
  obtain ⟨answers, inserted, table, -⟩ := insertions_answered all ds
  refine ⟨repeated, answers.size_eq, inserted _, ?_⟩
  rw [table, if_neg repeated]
  rfl

end

end FunctionTable

end Protoscript

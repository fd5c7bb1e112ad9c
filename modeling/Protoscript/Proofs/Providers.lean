import Protoscript.Builtin

/-! # Providers of built-ins

Built-ins come from a registry of providers.  A provider lists what it exports, and looks at the
name a second time when it is called: it answers that it does not own the name if it exports none of
that name, or if it has nothing to do under it.  The registry asks its providers in turn and takes
the first answer.

If each provider owns just what it exports, so does the registry (`isExported_iff_owned`).  The
registry with the one provider of the language is what evaluation uses: `isExported_standard` and
`callAny_standard`. -/

set_option autoImplicit false

namespace Protoscript

namespace Builtin

structure Export where
  name : String
  /-- The largest number of arguments, if it is limited. -/
  most? : Option Nat

/-- Refuses more arguments than the exported built-in takes. -/
def Export.checkCount (x : Export) (count line : Nat) : Interaction Unit :=
  match x.most?.filter (· < count) with
  | some most => throw ⟨.tooManyArguments x.name most count, line⟩
  | none => pure ()

/-- Calls answer `none` under a name that the provider does not own. -/
structure Provider where
  exports : List Export
  call : String → List Value → Nat → Interaction (Option Value)

def export? (exports : List Export) (name : String) : Option Export :=
  exports.find? (·.name = name)

/-- Whether some provider exports a built-in of that name. -/
def isExported (providers : List Provider) (name : String) : Bool :=
  providers.any fun p => (export? p.exports name).isSome

def callAny : List Provider → String → List Value → Nat → Interaction (Option Value)
  | [], _, _, _ => return none
  | p :: rest, name, args, line => do
    match ← p.call name args line with
    | some v => return some v
    | none => callAny rest name args line

def coreExports : List Export := [⟨"print", none⟩, ⟨"inputi", some 1⟩, ⟨"inputs", some 1⟩]

def core : Provider where
  exports := coreExports
  call name args line := do
    match export? coreExports name with
    | none => return none
    | some x =>
      x.checkCount args.length line
      match name with
      | "print" =>
        modify (·.print (String.join (args.map Value.text)))
        return some .nil
      | "inputi" =>
        let text ← ask args line
        match Numeral.signed? (Text.trim text.toList) with
        | some n => return some (.int n)
        | none => throw ⟨.notInteger text, line⟩
      | "inputs" => return some (.str (← ask args line))
      | _ => return none

/-- The providers of the language. -/
def standard : List Provider := [core]

/-! ## Exported names and owned names -/

/-- Called on any console, the provider owns the name just if it exports it. -/
def Provider.OwnsExports (p : Provider) : Prop :=
  ∀ name args line c, (export? p.exports name).isSome = true ↔
    ∀ after, p.call name args line c ≠ .ok none after

/-- A name is not owned if the first provider does not own it, and then none of the others does. -/
theorem callAny_cons_eq_none_iff {p : Provider} {rest : List Provider} {name : String}
    {args : List Value} {line : Nat} {c after : Console} :
    callAny (p :: rest) name args line c = .ok none after ↔
      ∃ between, p.call name args line c = .ok none between ∧
        callAny rest name args line between = .ok none after := by
  have asked : callAny (p :: rest) name args line c =
      EStateM.bind (p.call name args line) (fun found =>
        match found with
        | some v => pure (some v)
        | none => callAny rest name args line) c := rfl
  rw [asked, EStateM.bind]
  cases called : p.call name args line c with
  | error e between => exact ⟨nofun, nofun⟩
  | ok found between =>
    cases found with
    | some v =>
      constructor
      · intro same
        cases same
      · rintro ⟨_, same, -⟩
        cases same
    | none =>
      constructor
      · exact fun answered => ⟨between, rfl, answered⟩
      · rintro ⟨_, same, answered⟩
        cases same
        exact answered

/-- A registry owns what it exports if its providers do. -/
theorem isExported_iff_owned {providers : List Provider}
    (owns : ∀ p ∈ providers, p.OwnsExports) (name : String) (args : List Value) (line : Nat)
    (c : Console) : isExported providers name = true ↔
      ∀ after, callAny providers name args line c ≠ .ok none after := by
  induction providers generalizing c with
  | nil => exact ⟨nofun, fun owned => absurd rfl (owned c)⟩
  | cons p rest ih =>
    have first := owns p List.mem_cons_self name args line
    have later := ih fun q among => owns q (List.mem_cons_of_mem p among)
    rw [isExported, List.any_cons, Bool.or_eq_true]
    constructor
    · rintro (exported | exported) after answered
      · obtain ⟨between, unowned, -⟩ := callAny_cons_eq_none_iff.mp answered
        exact (first c).mp exported between unowned
      · obtain ⟨between, -, unowned⟩ := callAny_cons_eq_none_iff.mp answered
        exact (later between).mp exported after unowned
    · intro owned
      by_cases exported : (export? p.exports name).isSome = true
      · exact .inl exported
      · rw [first c, Classical.not_forall] at exported
        obtain ⟨between, unowned⟩ := exported
        rw [Classical.not_not] at unowned
        refine .inr ((later between).mpr fun after answered => ?_)
        exact owned after (callAny_cons_eq_none_iff.mpr ⟨between, unowned, answered⟩)

/-! ## The registry of the language -/

/-- A name is that of a built-in just if no call of it is answered with "not owned". -/
theorem isNamed_iff {provided : List Builtin} {name : String} (args : List Value) (line : Nat)
    (c : Console) : isNamed provided name = true ↔
      ∀ after, call? provided name args line c ≠ .ok none after := by
  unfold isNamed call?
  cases named? provided name with
  | none => exact ⟨nofun, fun owned => absurd rfl (owned c)⟩
  | some b =>
    refine ⟨fun _ after answered => ?_, fun _ => rfl⟩
    change EStateM.bind (b.run args line) _ c = _ at answered
    unfold EStateM.bind at answered
    split at answered <;> cases answered

/-- What the built-in is exported as. -/
def exported (b : Builtin) : Export := ⟨b.name, b.most?⟩

theorem export?_core (name : String) : export? coreExports name = (named? all name).map exported :=
  List.find?_map (f := exported) (l := all)

theorem isExported_standard (name : String) : isExported standard name = isNamed all name := by
  have exports : export? core.exports name = (named? all name).map exported := export?_core name
  rw [isExported, standard, List.any_cons, List.any_nil, Bool.or_false, exports,
    Option.isSome_map, isNamed]

/-- What is exported is called: there is something to do under its name. -/
theorem call_core (name : String) (args : List Value) (line : Nat) :
    core.call name args line = call? all name args line := by
  cases found : named? all name with
  | none => simp only [core, call?, export?_core, found, Option.map_none]
  | some b =>
    obtain rfl : b.name = name := by simpa using List.find?_some found
    have counts : (exported b).checkCount args.length line = b.checkCount args.length line := rfl
    simp only [core, call?, export?_core, found, Option.map_some, counts]
    cases b with
    | print => simp [run, name]
    | inputi =>
      simp only [run, name, bind_assoc]
      refine bind_congr fun _ => bind_congr fun text => ?_
      cases Numeral.signed? (Text.trim text.toList) with
      | some n => exact (pure_bind _ _).symm
      | none => rfl
    | inputs => simp [run, name]

theorem ownsExports_core : core.OwnsExports := by
  intro name args line c
  have exports : export? core.exports name = (named? all name).map exported := export?_core name
  rw [call_core, exports, Option.isSome_map]
  exact isNamed_iff args line c

theorem callAny_standard (name : String) (args : List Value) (line : Nat) :
    callAny standard name args line = call? all name args line := by
  have asked : callAny standard name args line =
      core.call name args line >>= fun found =>
        match found with
        | some v => pure (some v)
        | none => pure none := rfl
  rw [asked, ← call_core]
  refine (bind_congr fun found => ?_).trans (bind_pure _)
  cases found <;> rfl

end Builtin

end Protoscript

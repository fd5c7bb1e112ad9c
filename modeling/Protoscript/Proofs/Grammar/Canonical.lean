import Protoscript.Proofs.Grammar

/-! # Canonical renderings

The trees that have a rendering, and the canonical one: parentheses stand where an operand is
looser than its place allows, and no comma stands behind a last element.  Any other rendering is the
canonical one with parentheses and commas put in. -/

set_option autoImplicit false

namespace Protoscript

/-! ## Trees that can be rendered -/

mutual

/-- Whether every assignment has a target, every call statement a call, and every lambda its
name. -/
def Expr.WellFormed : Expr → Prop
  | .int .. | .bool .. | .str .. | .nil .. | .var .. | .object .. => True
  | .member e _ _ => e.WellFormed
  | .call _ es _ => Expr.AllWellFormed es
  | .method e _ es _ => e.WellFormed ∧ Expr.AllWellFormed es
  | .binary _ left right _ => left.WellFormed ∧ right.WellFormed
  | .unary _ e _ => e.WellFormed
  | .lambda d => d.name = "lambda" ∧ d.WellFormed

def Expr.AllWellFormed : List Expr → Prop
  | [] => True
  | e :: es => e.WellFormed ∧ Expr.AllWellFormed es

@[inherit_doc Expr.WellFormed]
def Stmt.WellFormed : Stmt → Prop
  | .assign target value _ => target ≠ [] ∧ value.WellFormed
  | .call e => e.isCall = true ∧ e.WellFormed
  | .branch condition yes none _ => condition.WellFormed ∧ Stmt.AllWellFormed yes
  | .branch condition yes (some no) _ =>
    condition.WellFormed ∧ Stmt.AllWellFormed yes ∧ Stmt.AllWellFormed no
  | .loop condition body _ => condition.WellFormed ∧ Stmt.AllWellFormed body
  | .ret none _ => True
  | .ret (some value) _ => value.WellFormed

def Stmt.AllWellFormed : List Stmt → Prop
  | [] => True
  | s :: body => s.WellFormed ∧ Stmt.AllWellFormed body

@[inherit_doc Expr.WellFormed]
def Definition.WellFormed : Definition → Prop
  | ⟨_, _, body, _⟩ => Stmt.AllWellFormed body

end

def Phrase.WellFormed : Phrase → Prop
  | .expr _ e => e.WellFormed
  | .args es => Expr.AllWellFormed es
  | .function d => d.WellFormed
  | .block body | .stmts body => Stmt.AllWellFormed body
  | .stmt s => s.WellFormed
  | .program ds => ∀ d ∈ ds, d.WellFormed
  | .param _ | .params _ | .fields _ => True

theorem Expr.wellFormed_of_mem {es : List Expr} (all : Expr.AllWellFormed es) {e : Expr}
    (among : e ∈ es) : e.WellFormed := by
  induction es with
  | nil => cases among
  | cons first rest ih =>
    rcases List.mem_cons.mp among with rfl | among
    · exact all.1
    · exact ih all.2 among

theorem Stmt.wellFormed_of_mem {body : List Stmt} (all : Stmt.AllWellFormed body) {s : Stmt}
    (among : s ∈ body) : s.WellFormed := by
  induction body with
  | nil => cases among
  | cons first rest ih =>
    rcases List.mem_cons.mp among with rfl | among
    · exact all.1
    · exact ih all.2 among

theorem Renders.wellFormed {placed : Position → Position → Prop} {φ : Phrase} {ts : List Token}
    (rendered : Renders placed φ ts) : φ.WellFormed := by
  induction rendered with
  | @atom e t kind _ =>
    cases e with
    | int | bool | str | nil | var | object => trivial
    | _ => cases kind
  | lambda name _ _ ih => exact ⟨name, ih⟩
  | method _ _ _ ih args => exact ⟨ih, args⟩
  | binary _ _ _ left right => exact ⟨left, right⟩
  | lastArg _ ih => exact ⟨ih, trivial⟩
  | moreArgs _ _ ih more => exact ⟨ih, more⟩
  | @function d _ _ _ _ _ _ _ block =>
    obtain ⟨_, _, _, _⟩ := d
    exact block
  | moreStmts _ _ ih more => exact ⟨ih, more⟩
  | assign _ _ _ _ value => exact ⟨List.cons_ne_nil _ _, value⟩
  | callStmt is _ ih => exact ⟨is, ih⟩
  | branch _ _ _ condition block => exact ⟨condition, block⟩
  | branchElse _ _ _ _ condition block other => exact ⟨condition, block, other⟩
  | loop _ _ _ condition block => exact ⟨condition, block⟩
  | noDefinitions => exact nofun
  | moreDefinitions _ _ _ ih more => exact List.forall_mem_cons.mpr ⟨ih, more⟩
  | group _ ih | call _ _ ih | member _ _ ih | unary _ _ ih | loosen _ ih | block _ ih
  | retValue _ _ ih => exact ih
  | _ => trivial

/-! ## The canonical rendering -/

/-- The tightest level that the expression can stand at without parentheses. -/
def Expr.level : Expr → Nat
  | .binary op _ _ _ => op.tier + 1
  | .unary _ _ _ => 1
  | _ => 0

def parens (kinds : List TokenKind) : List TokenKind :=
  .sign .leftParen :: (kinds ++ [.sign .rightParen])

def braces (kinds : List TokenKind) : List TokenKind :=
  .sign .leftBrace :: (kinds ++ [.sign .rightBrace])

def commas : List (List TokenKind) → List TokenKind
  | [] => []
  | [kinds] => kinds
  | kinds :: more :: rest => kinds ++ .sign .comma :: commas (more :: rest)

/-- The kinds of an expression where `level` is asked for. -/
def Expr.within (level : Nat) (e : Expr) (kinds : List TokenKind) : List TokenKind :=
  if e.level ≤ level then kinds else parens kinds

def Param.kinds (a : Param) : List TokenKind :=
  if a.byRef then [.keyword .ref, .ident a.name] else [.ident a.name]

/-- The kinds of a path after its root. -/
def fieldKinds (names : List String) : List TokenKind :=
  names.flatMap fun name => [.sign .dot, .ident name]

def pathKinds : List String → List TokenKind
  | [] => []
  | root :: names => .ident root :: fieldKinds names

mutual

/-- The kinds of the tokens of the canonical rendering. -/
def Expr.kinds : Expr → List TokenKind
  | .int value _ => [.int value]
  | .bool value _ => [.bool value]
  | .str text _ => [.str text]
  | .nil _ => [.nil]
  | .var name _ => [.ident name]
  | .object _ => [.sign .atSign]
  | .member e name _ => e.within 0 e.kinds ++ [.sign .dot, .ident name]
  | .call name es _ => .ident name :: parens (commas (Expr.kindsEach es))
  | .method e name es _ =>
    e.within 0 e.kinds ++ .sign .dot :: .ident name :: parens (commas (Expr.kindsEach es))
  | .binary op left right _ =>
    left.within (op.tier + 1) left.kinds ++ .sign op.sign :: right.within op.tier right.kinds
  | .unary op e _ => .sign op.sign :: e.within 1 e.kinds
  | .lambda d => .keyword .lambda :: d.kinds

def Expr.kindsEach : List Expr → List (List TokenKind)
  | [] => []
  | e :: es => e.kinds :: Expr.kindsEach es

@[inherit_doc Expr.kinds]
def Stmt.kinds : Stmt → List TokenKind
  | .assign target value _ =>
    pathKinds target ++ .sign .assign :: (value.kinds ++ [.sign .semicolon])
  | .call e => e.kinds ++ [.sign .semicolon]
  | .branch condition yes none _ =>
    .keyword .ifWord :: (parens condition.kinds ++ braces (Stmt.kindsAll yes))
  | .branch condition yes (some no) _ =>
    .keyword .ifWord :: (parens condition.kinds ++ (braces (Stmt.kindsAll yes) ++
      .keyword .elseWord :: braces (Stmt.kindsAll no)))
  | .loop condition body _ =>
    .keyword .whileWord :: (parens condition.kinds ++ braces (Stmt.kindsAll body))
  | .ret none _ => [.keyword .returnWord, .sign .semicolon]
  | .ret (some value) _ => .keyword .returnWord :: (value.kinds ++ [.sign .semicolon])

def Stmt.kindsAll : List Stmt → List TokenKind
  | [] => []
  | s :: body => s.kinds ++ Stmt.kindsAll body

/-- The kinds of what comes after the keyword and the name of a definition. -/
def Definition.kinds : Definition → List TokenKind
  | ⟨_, ps, body, _⟩ => parens (commas (ps.map Param.kinds)) ++ braces (Stmt.kindsAll body)

end

@[inherit_doc Expr.kinds]
def Definition.programKinds (ds : List Definition) : List TokenKind :=
  ds.flatMap fun d => .keyword .func :: .ident d.name :: d.kinds

@[inherit_doc Expr.kinds]
def Phrase.kinds : Phrase → List TokenKind
  | .expr level e => e.within level e.kinds
  | .args es => commas (Expr.kindsEach es)
  | .param a => a.kinds
  | .params ps => commas (ps.map Param.kinds)
  | .function d => d.kinds
  | .block body => braces (Stmt.kindsAll body)
  | .stmts body => Stmt.kindsAll body
  | .stmt s => s.kinds
  | .fields names => fieldKinds names
  | .program ds => Definition.programKinds ds

/-- Tokens of the kinds, all at the start. -/
def atStart (kinds : List TokenKind) : List Token := kinds.map fun k => ⟨k, .start⟩

section

variable (kinds more : List TokenKind) (k : TokenKind)

theorem map_kind_atStart : (atStart kinds).map Token.kind = kinds := by
  simp [atStart, Function.comp_def]

@[simp] theorem atStart_nil : atStart [] = [] := rfl

@[simp] theorem atStart_cons : atStart (k :: kinds) = ⟨k, .start⟩ :: atStart kinds := rfl

@[simp] theorem atStart_append : atStart (kinds ++ more) = atStart kinds ++ atStart more :=
  List.map_append

@[simp] theorem atStart_parens :
    atStart (parens kinds) = inParens .start .start (atStart kinds) := by
  simp [parens, inParens]

@[simp] theorem atStart_braces :
    atStart (braces kinds) = inBraces .start .start (atStart kinds) := by
  simp [braces, inBraces]

end

theorem Expr.level_le (e : Expr) : e.level ≤ loosest := by
  cases e with
  | binary op => cases op <;> simp [level, loosest, BinaryOp.tier]
  | _ => simp [level, loosest]

theorem Expr.within_loosest (e : Expr) (kinds : List TokenKind) : e.within loosest kinds = kinds :=
  if_pos e.level_le

theorem Expr.renders_within {e : Expr} (level : Nat)
    (rendered : Renders anywhere (.expr e.level e) (atStart e.kinds)) :
    Renders anywhere (.expr level e) (atStart (e.within level e.kinds)) := by
  rw [Expr.within]
  split
  · next le => exact rendered.loosen_le le
  · rw [atStart_parens]
    exact (rendered.loosen_le e.level_le).group.loosen_le (Nat.zero_le level)

theorem renders_params (ps : List Param) :
    Renders anywhere (.params ps) (atStart (commas (ps.map Param.kinds))) := by
  have single (a : Param) : Renders anywhere (.param a) (atStart a.kinds) := by
    obtain ⟨name, _ | _, place⟩ := a
    · exact .valueParam trivial
    · exact .refParam trivial
  induction ps with
  | nil => exact .noParams
  | cons a ps ih =>
    cases ps with
    | nil => exact (single a).lastParam
    | cons b ps =>
      simp only [List.map_cons, commas, atStart_append, atStart_cons]
      exact (single a).moreParams ih

theorem renders_fields (names : List String) :
    Renders anywhere (.fields names) (atStart (fieldKinds names)) := by
  induction names with
  | nil => exact .noFields
  | cons name names ih => exact ih.moreFields

mutual

theorem Expr.renders_kinds :
    ∀ {e : Expr}, e.WellFormed → Renders anywhere (.expr e.level e) (atStart e.kinds)
  | .int .., _ | .bool .., _ | .str .., _ | .nil .., _ | .var .., _ | .object .., _ =>
    .atom rfl trivial
  | .member e name _, is => by
    rw [Expr.kinds, atStart_append]
    exact .member trivial (Expr.renders_within 0 (Expr.renders_kinds is))
  | .call name es _, is => by
    rw [Expr.kinds, atStart_cons, atStart_parens]
    exact .call trivial (Expr.renders_kindsEach is)
  | .method e name es _, ⟨is, args⟩ => by
    rw [Expr.kinds, atStart_append, atStart_cons, atStart_cons, atStart_parens]
    exact .method trivial (Expr.renders_within 0 (Expr.renders_kinds is))
      (Expr.renders_kindsEach args)
  | .binary op left right _, ⟨first, second⟩ => by
    rw [Expr.kinds, atStart_append, atStart_cons]
    exact .binary trivial (Expr.renders_within _ (Expr.renders_kinds first))
      (Expr.renders_within _ (Expr.renders_kinds second))
  | .unary op e _, is => by
    rw [Expr.kinds, atStart_cons]
    exact .unary trivial (Expr.renders_within 1 (Expr.renders_kinds is))
  | .lambda d, ⟨name, is⟩ => by
    rw [Expr.kinds, atStart_cons]
    exact .lambda name trivial (Definition.renders_kinds is)

theorem Expr.renders_kindsEach : ∀ {es : List Expr}, Expr.AllWellFormed es →
    Renders anywhere (.args es) (atStart (commas (Expr.kindsEach es)))
  | [], _ => .noArgs
  | [e], ⟨is, _⟩ => ((Expr.renders_kinds is).loosen_le e.level_le).lastArg
  | e :: e' :: es, ⟨is, more⟩ => by
    have later := Expr.renders_kindsEach more
    simp only [Expr.kindsEach, commas, atStart_append, atStart_cons] at later ⊢
    exact ((Expr.renders_kinds is).loosen_le e.level_le).moreArgs later

theorem Stmt.renders_kinds :
    ∀ {s : Stmt}, s.WellFormed → Renders anywhere (.stmt s) (atStart s.kinds)
  | .assign [] _ _, ⟨target, _⟩ => absurd rfl target
  | .assign (root :: names) value _, ⟨_, is⟩ => by
    simp only [Stmt.kinds, pathKinds, List.cons_append, atStart_append, atStart_cons, atStart_nil]
    exact .assign trivial (renders_fields names)
      ((Expr.renders_kinds is).loosen_le value.level_le)
  | .call e, ⟨call, is⟩ => by
    simp only [Stmt.kinds, atStart_append, atStart_cons, atStart_nil]
    exact ((Expr.renders_kinds is).loosen_le e.level_le).callStmt call
  | .branch condition yes none _, ⟨is, block⟩ => by
    simp only [Stmt.kinds, atStart_append, atStart_cons, atStart_parens, atStart_braces]
    exact .branch trivial ((Expr.renders_kinds is).loosen_le condition.level_le)
      (Stmt.renders_kindsAll block).block
  | .branch condition yes (some no) _, ⟨is, block, other⟩ => by
    simp only [Stmt.kinds, atStart_append, atStart_cons, atStart_parens, atStart_braces]
    exact .branchElse trivial ((Expr.renders_kinds is).loosen_le condition.level_le)
      (Stmt.renders_kindsAll block).block (Stmt.renders_kindsAll other).block
  | .loop condition body _, ⟨is, block⟩ => by
    simp only [Stmt.kinds, atStart_append, atStart_cons, atStart_parens, atStart_braces]
    exact .loop trivial ((Expr.renders_kinds is).loosen_le condition.level_le)
      (Stmt.renders_kindsAll block).block
  | .ret none _, _ => .ret trivial
  | .ret (some value) _, is => by
    simp only [Stmt.kinds, atStart_append, atStart_cons, atStart_nil]
    exact .retValue trivial ((Expr.renders_kinds is).loosen_le value.level_le)

theorem Stmt.renders_kindsAll : ∀ {body : List Stmt}, Stmt.AllWellFormed body →
    Renders anywhere (.stmts body) (atStart (Stmt.kindsAll body))
  | [], _ => .noStmts
  | s :: body, ⟨is, more⟩ => by
    rw [Stmt.kindsAll, atStart_append]
    exact (Stmt.renders_kinds is).moreStmts (Stmt.renders_kindsAll more)

theorem Definition.renders_kinds :
    ∀ {d : Definition}, d.WellFormed → Renders anywhere (.function d) (atStart d.kinds)
  | ⟨_, ps, body, _⟩, is => by
    rw [Definition.kinds, atStart_append, atStart_parens, atStart_braces]
    exact .function (renders_params ps) (Stmt.renders_kindsAll is).block

end

/-- The canonical rendering is a rendering. -/
theorem Definition.renders_programKinds {ds : List Definition}
    (wellFormed : ∀ d ∈ ds, d.WellFormed) :
    Renders anywhere (.program ds) (atStart (Definition.programKinds ds)) := by
  induction ds with
  | nil => exact .noDefinitions
  | cons d ds ih =>
    obtain ⟨first, later⟩ := List.forall_mem_cons.mp wellFormed
    rw [Definition.programKinds, List.flatMap_cons, List.cons_append, List.cons_append,
      atStart_cons, atStart_cons, atStart_append]
    exact .moreDefinitions trivial (Definition.renders_kinds first) (ih later)

/-! ## Other renderings -/

/-- The second list is the first with parentheses and commas put in. -/
inductive Padded : List TokenKind → List TokenKind → Prop
  | nil : Padded [] []
  | keep {k : TokenKind} {ks ls : List TokenKind} : Padded ks ls → Padded (k :: ks) (k :: ls)
  | add {k : TokenKind} {ks ls : List TokenKind} :
    k ∈ [.sign .leftParen, .sign .rightParen, .sign .comma] → Padded ks ls → Padded ks (k :: ls)

namespace Padded

variable {ks ls ms ns : List TokenKind}

theorem refl (ks : List TokenKind) : Padded ks ks := by
  induction ks with
  | nil => exact .nil
  | cons k ks ih => exact ih.keep

theorem append (first : Padded ks ls) (second : Padded ms ns) : Padded (ks ++ ms) (ls ++ ns) := by
  induction first with
  | nil => exact second
  | keep _ ih => exact ih.keep
  | add is _ ih => exact ih.add is

theorem trans (first : Padded ks ls) (second : Padded ls ms) : Padded ks ms := by
  induction second generalizing ks with
  | nil => exact first
  | keep _ ih =>
    cases first with
    | keep first => exact (ih first).keep
    | add is first => exact (ih first).add is
  | add is _ ih => exact (ih first).add is

theorem grouped (padded : Padded ks ls) : Padded ks (parens ls) := by
  have behind : Padded [] [.sign .rightParen] := .add (by decide) .nil
  exact .add (by decide) (by simpa using padded.append behind)

theorem inParens (padded : Padded ks ls) : Padded (parens ks) (parens ls) :=
  .keep (padded.append (.refl _))

theorem inBraces (padded : Padded ks ls) : Padded (braces ks) (braces ls) :=
  .keep (padded.append (.refl _))

end Padded

theorem map_kind_inParens (p q : Position) (ts : List Token) :
    (inParens p q ts).map Token.kind = parens (ts.map Token.kind) := by simp [inParens, parens]

theorem map_kind_inBraces (p q : Position) (ts : List Token) :
    (inBraces p q ts).map Token.kind = braces (ts.map Token.kind) := by simp [inBraces, braces]

/-- A comma may stand behind the last element. -/
theorem Padded.commas_cons {ks ls ms : List TokenKind} {rest : List (List TokenKind)}
    (first : Padded ks ls) (later : Padded (commas rest) ms) :
    Padded (commas (ks :: rest)) (ls ++ .sign .comma :: ms) := by
  cases rest with
  | nil => simpa [commas] using first.append (.add (by decide) later)
  | cons => exact first.append later.keep

/-- At a tighter level there are at most parentheses more. -/
theorem Expr.padded_within (e : Expr) (level : Nat) (kinds : List TokenKind) :
    Padded (e.within (level + 1) kinds) (e.within level kinds) := by
  rw [within, within]
  split
  · split
    · exact .refl _
    · exact (Padded.refl _).grouped
  · rw [if_neg (by omega)]
    exact .refl _

/-- A rendering is the canonical one with parentheses and commas put in. -/
theorem Renders.padded {placed : Position → Position → Prop} {φ : Phrase} {ts : List Token}
    (rendered : Renders placed φ ts) : Padded φ.kinds (ts.map Token.kind) := by
  induction rendered with
  | @atom e t kind _ =>
    have canonical : Phrase.kinds (.expr 0 e) = [t.kind] := by
      cases e with
      | int | bool | str | nil | var | object => exact congrArg (· :: []) (Option.some.inj kind)
      | _ => cases kind
    rw [canonical]
    exact .refl _
  | group _ ih =>
    rw [Phrase.kinds, Expr.within_loosest] at ih
    rw [Phrase.kinds, Expr.within, map_kind_inParens]
    split
    · exact ih.grouped
    · exact ih.inParens
  | lambda _ _ _ ih => exact .keep ih
  | call _ _ ih =>
    rw [List.map_cons, map_kind_inParens]
    exact .keep ih.inParens
  | member _ _ ih =>
    rw [List.map_append]
    exact ih.append (.refl _)
  | method _ _ _ ih args =>
    rw [List.map_append, List.map_cons, List.map_cons, map_kind_inParens]
    exact ih.append args.inParens.keep.keep
  | unary _ _ ih => exact .keep ih
  | binary _ _ _ left right =>
    rw [Phrase.kinds, Expr.within, if_pos (by exact Nat.le_refl _), List.map_append]
    exact left.append right.keep
  | loosen _ ih => exact (Expr.padded_within ..).trans ih
  | noArgs | noParams | noStmts | noFields | noDefinitions => exact .nil
  | lastArg _ ih =>
    rw [Phrase.kinds, Expr.within_loosest] at ih
    exact ih
  | moreArgs _ _ ih more =>
    rw [Phrase.kinds, Expr.within_loosest] at ih
    rw [List.map_append, List.map_cons]
    exact ih.commas_cons more
  | valueParam _ | refParam _ => exact .refl _
  | lastParam _ ih => exact ih
  | moreParams _ _ ih more =>
    rw [List.map_append, List.map_cons]
    exact ih.commas_cons more
  | @function d _ _ _ _ _ _ params block =>
    obtain ⟨_, _, _, _⟩ := d
    rw [List.map_append, map_kind_inParens]
    exact params.inParens.append block
  | block _ ih =>
    rw [map_kind_inBraces]
    exact ih.inBraces
  | moreStmts _ _ ih more =>
    rw [List.map_append]
    exact ih.append more
  | assign _ _ _ fields value =>
    rw [Phrase.kinds, Expr.within_loosest] at value
    rw [List.map_cons, List.map_append, List.map_cons, List.map_append]
    exact .keep (fields.append (value.append (.refl _)).keep)
  | moreFields _ ih => exact .keep (.keep ih)
  | callStmt _ _ ih =>
    rw [Phrase.kinds, Expr.within_loosest] at ih
    rw [List.map_append]
    exact ih.append (.refl _)
  | branch _ _ _ condition block =>
    rw [Phrase.kinds, Expr.within_loosest] at condition
    rw [List.map_cons, List.map_append, map_kind_inParens]
    exact .keep (condition.inParens.append block)
  | branchElse _ _ _ _ condition block other =>
    rw [Phrase.kinds, Expr.within_loosest] at condition
    rw [List.map_cons, List.map_append, map_kind_inParens, List.map_append, List.map_cons]
    exact .keep (condition.inParens.append (block.append other.keep))
  | loop _ _ _ condition block =>
    rw [Phrase.kinds, Expr.within_loosest] at condition
    rw [List.map_cons, List.map_append, map_kind_inParens]
    exact .keep (condition.inParens.append block)
  | ret _ => exact .refl _
  | retValue _ _ ih =>
    rw [Phrase.kinds, Expr.within_loosest] at ih
    rw [List.map_cons, List.map_append]
    exact .keep (ih.append (.refl _))
  | moreDefinitions _ _ _ ih more =>
    rw [List.map_cons, List.map_cons, List.map_append]
    exact .keep (.keep (ih.append more))

end Protoscript

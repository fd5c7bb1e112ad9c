import Protoscript.Store

/-! # Renamings

Two machines that do the same may give what they allocate different numbers.  A renaming says which
frames, objects and closures of the one stand for which of the other.  From some numbers on it
goes by the order of allocation, so it is fixed before anything new is allocated.

`Numbering.Rows` relates two arrays of which as much was filled on both sides since the numbering
began, and whose entries are related where their numbers correspond. -/

set_option autoImplicit false

namespace Protoscript

/-- A correspondence of numbers that are given out in turn on two sides.  Of those below `left` and
`right`, some that were given out early correspond; from there on, numbers correspond in the order
in which they are given out. -/
structure Numbering where
  early : Nat → Nat → Prop
  left : Nat
  right : Nat
  below : ∀ {i j}, early i j → i < left ∧ j < right
  early_oneToOne : ∀ {i j i' j'}, early i j → early i' j' → (i = i' ↔ j = j')

namespace Numbering

variable (ν : Numbering) {i j i' j' a b : Nat}

/-- As many numbers were given out on both sides since the start of the numbering. -/
def InStep (a b : Nat) : Prop := ∃ k, a = ν.left + k ∧ b = ν.right + k

def Pairs (i j : Nat) : Prop := ν.early i j ∨ ν.InStep i j

variable {ν}

theorem InStep.succ (inStep : ν.InStep a b) : ν.InStep (a + 1) (b + 1) := by
  obtain ⟨k, rfl, rfl⟩ := inStep
  exact ⟨k + 1, rfl, rfl⟩

theorem Pairs.oneToOne (pair : ν.Pairs i j) (pair' : ν.Pairs i' j') : i = i' ↔ j = j' := by
  rcases pair with early | ⟨k, rfl, rfl⟩
  · obtain ⟨_, _⟩ := ν.below early
    rcases pair' with early' | ⟨k', rfl, rfl⟩
    · exact ν.early_oneToOne early early'
    · omega
  · rcases pair' with early' | ⟨k', rfl, rfl⟩
    · obtain ⟨_, _⟩ := ν.below early'
      omega
    · omega

variable {ν : Numbering} {α β : Type} {P : α → β → Prop} {as : Array α} {bs : Array β}

/-- Two arrays with as many entries since the numbering began, and `P` between the corresponding
ones. -/
structure Rows (ν : Numbering) (P : α → β → Prop) (as : Array α) (bs : Array β) : Prop where
  inStep : ν.InStep as.size bs.size
  entry : ∀ {i j}, ν.Pairs i j → Option.Rel P as[i]? bs[j]?

namespace Rows

variable (rows : ν.Rows P as bs)

include rows

/-- The numbers that are given out next correspond. -/
theorem next : ν.Pairs as.size bs.size := .inr rows.inStep

theorem push {a : α} {b : β} (last : P a b) : ν.Rows P (as.push a) (bs.push b) where
  inStep := by
    rw [Array.size_push, Array.size_push]
    exact rows.inStep.succ
  entry {i j} pair := by
    have new := pair.oneToOne rows.next
    rw [Array.getElem?_push, Array.getElem?_push]
    by_cases same : i = as.size
    · rw [if_pos same, if_pos (new.mp same)]
      exact .some last
    · rw [if_neg same, if_neg (mt new.mpr same)]
      exact rows.entry pair

theorem modify {i j : Nat} (pair : ν.Pairs i j) {f : α → α} {g : β → β}
    (kept : ∀ a b, P a b → P (f a) (g b)) : ν.Rows P (as.modify i f) (bs.modify j g) where
  inStep := by
    rw [Array.size_modify, Array.size_modify]
    exact rows.inStep
  entry {i' j'} pair' := by
    have same := pair.oneToOne pair'
    have old := rows.entry pair'
    rw [Array.getElem?_modify, Array.getElem?_modify]
    by_cases here : i = i'
    · rw [if_pos here, if_pos (same.mp here)]
      match as[i']?, bs[j']?, old with
      | _, _, .some related => exact .some (kept _ _ related)
      | _, _, .none => exact .none
    · rw [if_neg here, if_neg (mt same.mpr here)]
      exact old

theorem getD {i j : Nat} (pair : ν.Pairs i j) {a : α} {b : β} (default : P a b) :
    P (as.getD i a) (bs.getD j b) := by
  rw [Array.getD_eq_getD_getElem?, Array.getD_eq_getD_getElem?]
  match as[i]?, bs[j]?, rows.entry pair with
  | _, _, .some related => exact related
  | _, _, .none => exact default

end Rows

end Numbering

/-! ## Numberings that begin with what there is -/

/-- Some numbers correspond to themselves, and then those given out from `left` and `right` on. -/
def Numbering.keeping (kept : Nat → Prop) (left right : Nat)
    (below : ∀ i, kept i → i < left ∧ i < right) : Numbering where
  early i j := i = j ∧ kept i
  left := left
  right := right
  below := by
    intro i j early
    obtain ⟨rfl, keeps⟩ := early
    exact below i keeps
  early_oneToOne := by
    intro i j i' j' early early'
    obtain ⟨rfl, -⟩ := early
    obtain ⟨rfl, -⟩ := early'
    exact .rfl

theorem Numbering.Rows.keeping {α β : Type} {P : α → β → Prop} {as : Array α} {bs : Array β}
    {kept : Nat → Prop} (below : ∀ i, kept i → i < as.size ∧ i < bs.size)
    (entry : ∀ i, kept i → Option.Rel P as[i]? bs[i]?) :
    (Numbering.keeping kept as.size bs.size below).Rows P as bs where
  inStep := ⟨0, rfl, rfl⟩
  entry := by
    intro i j pair
    rcases pair with ⟨rfl, keeps⟩ | ⟨k, rfl, rfl⟩
    · exact entry i keeps
    · have left : as[as.size + k]? = none := Array.getElem?_eq_none (Nat.le_add_right _ k)
      have right : bs[bs.size + k]? = none := Array.getElem?_eq_none (Nat.le_add_right _ k)
      change Option.Rel P as[as.size + k]? bs[bs.size + k]?
      rw [left, right]
      exact .none

namespace Numbering

/-- Only the numbers given out from here on correspond. -/
def since (left right : Nat) : Numbering := keeping (fun _ => False) left right nofun

theorem Rows.since {α β : Type} {P : α → β → Prop} (as : Array α) (bs : Array β) :
    (Numbering.since as.size bs.size).Rows P as bs :=
  .keeping nofun nofun

/-- Every number corresponds to itself. -/
def equal : Numbering := since 0 0

theorem pairs_equal_iff {i j : Nat} : equal.Pairs i j ↔ i = j := by
  constructor
  · rintro (⟨-, ⟨⟩⟩ | ⟨k, rfl, rfl⟩)
    rfl
  · rintro rfl
    exact .inr ⟨i, (Nat.zero_add i).symm, (Nat.zero_add i).symm⟩

theorem Rows.self {α : Type} {P : α → α → Prop} {as : Array α} (refl : ∀ a ∈ as, P a a) :
    equal.Rows P as as where
  inStep := ⟨as.size, (Nat.zero_add _).symm, (Nat.zero_add _).symm⟩
  entry {i j} pair := by
    obtain rfl := pairs_equal_iff.mp pair
    cases found : as[i]? with
    | none => exact .none
    | some a => exact .some (refl a (Array.mem_of_getElem? found))

theorem Rows.exists_right {α β : Type} {P : α → β → Prop} {as : Array α} {bs : Array β}
    (rows : equal.Rows P as bs) : ∀ a ∈ as, ∃ b, P a b := by
  intro a among
  obtain ⟨i, found⟩ := Array.mem_iff_getElem?.mp among
  have entry := rows.entry (pairs_equal_iff.mpr (rfl : i = i))
  rw [found] at entry
  generalize bs[i]? = right at entry
  cases entry with
  | @some _ b related => exact ⟨b, related⟩

end Numbering

/-! ## Renamings -/

structure Renaming where
  frames : Numbering
  objects : Numbering
  closures : Numbering

namespace Renaming

variable (ρ : Renaming)

def SameFrame (f g : FrameId) : Prop := ρ.frames.Pairs f.index g.index

def SameObject (o p : ObjectId) : Prop := ρ.objects.Pairs o.index p.index

variable {ρ}

theorem SameObject.eq_iff {o o' p p' : ObjectId} (same : ρ.SameObject o p)
    (same' : ρ.SameObject o' p') : o = o' ↔ p = p' := by
  obtain ⟨i⟩ := o
  obtain ⟨i'⟩ := o'
  obtain ⟨j⟩ := p
  obtain ⟨j'⟩ := p'
  rw [ObjectId.mk.injEq, ObjectId.mk.injEq]
  exact same.oneToOne same'

/-- Every frame, object and closure corresponds to itself. -/
def equal : Renaming := ⟨.equal, .equal, .equal⟩

theorem sameFrame_equal_iff {f g : FrameId} : equal.SameFrame f g ↔ f = g := by
  obtain ⟨i⟩ := f
  obtain ⟨j⟩ := g
  rw [FrameId.mk.injEq]
  exact Numbering.pairs_equal_iff

theorem sameObject_equal_iff {o p : ObjectId} : equal.SameObject o p ↔ o = p := by
  obtain ⟨i⟩ := o
  obtain ⟨j⟩ := p
  rw [ObjectId.mk.injEq]
  exact Numbering.pairs_equal_iff

end Renaming

end Protoscript

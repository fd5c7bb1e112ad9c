import Protoscript.Machine

/-! # Shadowing

An environment is a stack of maps, and may share its frames with other environments.  A write puts a
value under one name of one frame (`Store.Binds`): `set` takes the innermost frame that binds the
name, or the innermost of all if none does (`Environment.Receives`), `create` always the innermost.
Those environments see it that hold the frame and bind the name nowhere further in
(`Environment.Reveals`), and every other look-up is as before: `Environment.get?_of_binds`.  So what
is written in a scope of its own, to names that were unbound around it, is gone when the scope
ends (`Machine.beside_writeAll`). -/

set_option autoImplicit false

namespace Protoscript

/-- From `s` to `t` the name `x` of the frame `f` has got the value `v`. -/
structure Store.Binds (s : Store) (f : FrameId) (x : String) (v : Value) (t : Store) : Prop where
  frame : ∀ g y, (t.frame g).get? y = if g = f ∧ y = x then some v else (s.frame g).get? y
  size : t.frames.size = s.frames.size
  objects : t.objects = s.objects
  closures : t.closures = s.closures

theorem Store.binds_bind {s : Store} {f : FrameId} (allocated : f.index < s.frames.size)
    (x : String) (v : Value) : s.Binds f x v (s.bind f x v) where
  frame g y := by
    by_cases here : g = f
    · subst here
      rw [frame_bind_self allocated, Bindings.get?_insert]
      simp only [true_and]
    · rw [frame_bind_of_ne s here, if_neg fun both => here both.1]
  size := s.size_frames_bind f x v
  objects := rfl
  closures := rfl

namespace Environment

/-- The frames of the environment further in than `f`. -/
def inside (e : Environment) (f : FrameId) : List FrameId := e.frames.takeWhile (· ≠ f)

/-- The frame is one of the environment's, and no frame further in binds the name. -/
def Reveals (s : Store) (e : Environment) (x : String) (f : FrameId) : Prop :=
  f ∈ e.frames ∧ ∀ g ∈ e.inside f, (s.frame g).contains x = false

instance (s : Store) (e : Environment) (x : String) (f : FrameId) : Decidable (e.Reveals s x f) :=
  inferInstanceAs (Decidable (_ ∧ _))

/-- The frame is the innermost one that binds the name, or else the innermost of all. -/
def Receives (s : Store) (e : Environment) (x : String) (f : FrameId) : Prop :=
  (s.frame f).contains x = true ∧ e.Reveals s x f ∨
    (∀ g ∈ e.frames, (s.frame g).contains x = false) ∧ f = e.inner

variable {s t : Store} {e : Environment} {f g : FrameId} {x : String} {v : Value}

/-! ## Frames of an environment -/

theorem reveals_inner (s : Store) (e : Environment) (x : String) : e.Reveals s x e.inner := by
  refine ⟨e.inner_mem_frames, fun g further => ?_⟩
  have none : e.inside e.inner = [] := List.takeWhile_cons_of_neg (by simp)
  rw [none] at further
  cases further

theorem reveals_of_owner? (owner : e.owner? s x = some f) : e.Reveals s x f := by
  refine ⟨(mem_of_owner? owner).1, fun g further => ?_⟩
  obtain ⟨-, before, after, split, unbound⟩ := List.find?_eq_some_iff_append.mp owner
  rw [inside, split] at further
  have among : g ∈ before := by
    rw [List.takeWhile_append] at further
    split at further
    · simpa using further
    · exact (List.takeWhile_prefix _).subset further
  simpa using unbound g among

/-- A frame that binds the name hides those further out. -/
theorem Reveals.eq (one : e.Reveals s x f) (other : e.Reveals s x g)
    (bound : (s.frame f).contains x = true) (bound' : (s.frame g).contains x = true) : f = g := by
  refine Decidable.byContradiction fun apart => ?_
  have ordered : ∀ {l : List FrameId}, f ∈ l → g ∈ l →
      f ∈ l.takeWhile (· ≠ g) ∨ g ∈ l.takeWhile (· ≠ f) := by
    intro l
    induction l with
    | nil => nofun
    | cons h l ih =>
      intro used used'
      by_cases first : h = f
      · subst first
        simp [apart]
      by_cases first' : h = g
      · subst first'
        simp [first]
      · have used := (List.mem_cons.mp used).resolve_left (Ne.symm first)
        have used' := (List.mem_cons.mp used').resolve_left (Ne.symm first')
        simpa [first, first', Ne.symm first, Ne.symm first'] using ih used used'
  rcases ordered one.1 other.1 with further | further
  · exact absurd bound (by simp [other.2 f further])
  · exact absurd bound' (by simp [one.2 g further])

theorem receives_iff : e.Receives s x f ↔ f = (e.owner? s x).getD e.inner := by
  cases owner : e.owner? s x with
  | some g =>
    have bound := (mem_of_owner? owner).2
    constructor
    · rintro (⟨bound', reveals⟩ | ⟨unbound, -⟩)
      · exact reveals.eq (reveals_of_owner? owner) bound' bound
      · exact absurd bound (by simp [unbound g (mem_of_owner? owner).1])
    · rintro rfl
      exact .inl ⟨bound, reveals_of_owner? owner⟩
  | none =>
    have unbound : ∀ g ∈ e.frames, (s.frame g).contains x = false := by
      simpa [owner?] using owner
    constructor
    · rintro (⟨bound, used, -⟩ | ⟨-, same⟩)
      · exact absurd bound (by simp [unbound f used])
      · exact same
    · rintro rfl
      exact .inr ⟨unbound, rfl⟩

theorem Receives.reveals (receives : e.Receives s x f) : e.Reveals s x f := by
  rcases receives with ⟨-, reveals⟩ | ⟨-, rfl⟩
  · exact reveals
  · exact reveals_inner s e x

/-! ## What a write changes -/

/-- Written under a name of a frame, a value is found by the environments that reveal it, and every
other look-up finds what it found before. -/
theorem get?_of_binds (binds : s.Binds f x v t) (e : Environment) (y : String) :
    e.get? t y = if y = x ∧ e.Reveals s x f then some v else e.get? s y := by
  by_cases named : y = x
  · subst named
    simp only [true_and, get?, Reveals, inside]
    induction e.frames with
    | nil => simp
    | cons g l ih =>
      by_cases here : g = f
      · subst here
        simp [binds.frame]
      · rw [List.findSome?_cons, List.findSome?_cons, binds.frame, if_neg fun both => here both.1,
          ih]
        simp only [List.mem_cons, Ne.symm here, false_or, ne_eq, here, not_false_eq_true,
          decide_true, List.takeWhile_cons_of_pos, forall_eq_or_imp]
        rw [Bindings.contains]
        cases (s.frame g).get? y <;> simp
  · rw [if_neg fun both => named both.1, get?, get?]
    congr 1
    funext g
    rw [binds.frame, if_neg fun both => named both.2]

/-- A look-up depends on the environment's own frames only. -/
theorem get?_congr (same : ∀ f ∈ e.frames, t.frame f = s.frame f) (x : String) :
    e.get? t x = e.get? s x := by
  unfold get?
  generalize e.frames = l at same
  induction l with
  | nil => rfl
  | cons f l ih =>
    rw [List.findSome?_cons, List.findSome?_cons, same f List.mem_cons_self,
      ih fun g used => same g (List.mem_cons_of_mem f used)]

/-- An environment made from one frame looks everything up in it. -/
theorem get?_ofFrame (s : Store) (f : FrameId) (x : String) :
    (ofFrame f).get? s x = (s.frame f).get? x := by
  rw [get?, frames, ofFrame, List.findSome?_singleton]

/-- The innermost frame is dropped, but for the last one. -/
theorem frames_pop (e : Environment) :
    e.pop.frames = if 1 < e.frames.length then e.frames.tail else e.frames := by
  obtain ⟨f, _ | ⟨g, fs⟩⟩ := e
  · rfl
  · exact (if_pos (Nat.succ_lt_succ (Nat.succ_pos fs.length))).symm

end Environment

/-- A write to a variable: `create` in the innermost frame, `set` where the name is bound. -/
inductive VariableWrite
  | create (x : String) (v : Value)
  | set (x : String) (v : Value)

namespace Machine

/-- From `m` to `n` the name `x` of the frame `f` has got the value `v`.  The environments that
reveal it now find `v`; nothing else has changed for any of them. -/
structure Writes (m : Machine) (f : FrameId) (x : String) (v : Value) (n : Machine) : Prop where
  store : m.store.Binds f x v n.store
  env : n.env = m.env
  own : n.get? x = some v
  seen : ∀ e : Environment, e.Reveals m.store x f → e.get? n.store x = some v
  unseen : ∀ e : Environment, ¬ e.Reveals m.store x f → e.get? n.store x = e.get? m.store x
  others : ∀ (e : Environment) (y : String), y ≠ x → e.get? n.store y = e.get? m.store y

def write (m : Machine) : VariableWrite → Machine
  | .create x v => m.create x v
  | .set x v => m.set x v

/-- The machine after some writes in turn. -/
def writeAll (m : Machine) (ws : List VariableWrite) : Machine := ws.foldl write m

/-- On `n` a new frame lies on the environment of `m`, and the frames of `m` are as they were. -/
structure Beside (m n : Machine) : Prop where
  env : n.env = m.env.push ⟨m.store.frames.size⟩
  size : m.store.frames.size < n.store.frames.size
  frame : ∀ f, f.index < m.store.frames.size → n.store.frame f = m.store.frame f

variable {m n p : Machine} {f : FrameId} {x : String} {v : Value}

/-! ## One write -/

theorem writes_bind (allocated : f.index < m.store.frames.size)
    (reveals : m.env.Reveals m.store x f) (v : Value) :
    m.Writes f x v { m with store := m.store.bind f x v } := by
  have binds := Store.binds_bind allocated x v
  have found := fun e y => Environment.get?_of_binds binds e y
  exact {
    store := binds
    env := rfl
    own := (found m.env x).trans (if_pos ⟨rfl, reveals⟩)
    seen e reveals := (found e x).trans (if_pos ⟨rfl, reveals⟩)
    unseen e hidden := (found e x).trans (if_neg fun both => hidden both.2)
    others e y other := (found e y).trans (if_neg fun both => other both.1) }

theorem writes_set (allocated : f.index < m.store.frames.size)
    (receives : m.env.Receives m.store x f) (v : Value) : m.Writes f x v (m.set x v) := by
  have target : (m.env.owner? m.store x).getD m.env.inner = f :=
    (Environment.receives_iff.mp receives).symm
  rw [set, Environment.set, target]
  exact writes_bind allocated receives.reveals v

theorem writes_create (allocated : m.env.inner.index < m.store.frames.size) (x : String)
    (v : Value) : m.Writes m.env.inner x v (m.create x v) :=
  writes_bind allocated (m.env.reveals_inner m.store x) v

/-! ## Writes in a scope of their own -/

theorem beside_push (m : Machine) : m.Beside m.push where
  env := rfl
  size := by simp [push, Store.newFrame]
  frame f old := Store.frame_push_of_lt rfl old

namespace Beside

variable (beside : m.Beside n)

include beside

theorem allocated : n.env.inner.index < n.store.frames.size := by
  rw [beside.env]
  exact beside.size

/-- A write to the new frame. -/
theorem of_writes (writes : n.Writes n.env.inner x v p) : m.Beside p where
  env := writes.env.trans beside.env
  size := Nat.lt_of_lt_of_eq beside.size writes.store.size.symm
  frame f old := by
    have other : f ≠ n.env.inner := by
      rintro rfl
      rw [beside.env] at old
      exact absurd old (Nat.lt_irrefl _)
    rw [← beside.frame f old]
    ext y
    rw [writes.store.frame, if_neg fun both => other both.1]

/-- What was there before finds the same as before. -/
theorem get?_eq (e : Environment) (old : ∀ f ∈ e.frames, f.index < m.store.frames.size)
    (x : String) : e.get? n.store x = e.get? m.store x :=
  Environment.get?_congr (fun f used => beside.frame f (old f used)) x

/-- A name that was unbound before is bound in the new frame or in none. -/
theorem receives (allocated : ∀ f ∈ m.env.frames, f.index < m.store.frames.size)
    (unbound : m.get? x = none) : n.env.Receives n.store x n.env.inner := by
  by_cases here : (n.store.frame n.env.inner).contains x = true
  · exact .inl ⟨here, n.env.reveals_inner n.store x⟩
  · refine .inr ⟨fun g used => ?_, rfl⟩
    have around : m.env.get? n.store x = none := (beside.get?_eq m.env allocated x).trans unbound
    rw [Bool.eq_false_iff]
    intro bound
    rw [beside.env] at used here
    rcases List.mem_cons.mp used with rfl | used
    · exact here bound
    · have found := Environment.isSome_get?_iff.mpr ⟨g, used, bound⟩
      rw [around] at found
      cases found

end Beside

theorem beside_writeAll (allocated : ∀ f ∈ m.env.frames, f.index < m.store.frames.size)
    {ws : List VariableWrite} (unbound : ∀ x v, .set x v ∈ ws → m.get? x = none)
    (beside : m.Beside n) : m.Beside (n.writeAll ws) := by
  induction ws generalizing n with
  | nil => exact beside
  | cons w ws ih =>
    refine ih (fun x v later => unbound x v (List.mem_cons_of_mem w later)) ?_
    cases w with
    | create x v => exact beside.of_writes (writes_create beside.allocated x v)
    | set x v =>
      have receives := beside.receives allocated (unbound x v List.mem_cons_self)
      exact beside.of_writes (writes_set beside.allocated receives v)

/-- The environment of a machine is a stack of maps, the innermost binding of a name hiding those
further out, whatever other environments hold its frames.  `set` writes to the one frame that
`Environment.Receives` describes, `create` to the innermost.  As one map, or as the only frame of
an environment, all that is visible is found as before.  After a scope of its own with writes to
names that were unbound around it, and any creations, every frame and look-up is as it was. -/
theorem environment_shadows (m : Machine)
    (allocated : ∀ f ∈ m.env.frames, f.index < m.store.frames.size) :
    (∀ x, ∃ f, (∀ g, m.env.Receives m.store x g ↔ g = f) ∧ ∀ v, m.Writes f x v (m.set x v)) ∧
    (∀ x v, m.Writes m.env.inner x v (m.create x v)) ∧
    (∀ x, (m.env.flatten m.store).get? x = m.get? x ∧
      ∀ (t : Store) (f : FrameId), t.frame f = m.env.flatten m.store →
        (Environment.ofFrame f).get? t x = m.get? x) ∧
    (∀ ws : List VariableWrite, (∀ x v, .set x v ∈ ws → m.get? x = none) →
      (m.push.writeAll ws).pop.env = m.env ∧
      (∀ f, f.index < m.store.frames.size →
        (m.push.writeAll ws).pop.store.frame f = m.store.frame f) ∧
      ∀ e : Environment, (∀ f ∈ e.frames, f.index < m.store.frames.size) →
        ∀ x, e.get? (m.push.writeAll ws).pop.store x = e.get? m.store x) ∧
    m.env.frames ≠ [] ∧
    m.pop.env.frames =
      if 1 < m.env.frames.length then m.env.frames.tail else m.env.frames := by
  refine ⟨fun x => ?_, fun x v => ?_, fun x => ⟨?_, fun t f same => ?_⟩, fun ws unbound => ?_,
    List.cons_ne_nil _ _, m.env.frames_pop⟩
  · refine ⟨_, fun g => Environment.receives_iff, fun v => ?_⟩
    have receives := Environment.receives_iff.mpr (rfl : _ = (m.env.owner? m.store x).getD _)
    exact writes_set (allocated _ receives.reveals.1) receives v
  · exact writes_create (allocated _ m.env.inner_mem_frames) x v
  · exact m.env.get?_flatten m.store x
  · rw [Environment.get?_ofFrame, same]
    exact m.env.get?_flatten m.store x
  · have beside := beside_writeAll allocated unbound m.beside_push
    refine ⟨?_, beside.frame, beside.get?_eq⟩
    rw [pop, beside.env, Environment.pop_push]

/-- Two frames, the outer one of which other environments may share. -/
def sharing : Machine := ((start []).create "x" (.int 1)).push

/-- A write past the inner frame is seen through the outer one. -/
theorem environment_shadows_of_sharing :
    (∀ f ∈ sharing.env.frames, f.index < sharing.store.frames.size) ∧
    (Environment.ofFrame ⟨0⟩).get? (sharing.set "x" (.int 2)).store "x" = some (.int 2) ∧
    sharing.pop.env.frames = [⟨0⟩] := by
  have allocated : ∀ f ∈ sharing.env.frames, f.index < sharing.store.frames.size := by
    with_unfolding_all decide
  obtain ⟨set, -, -, -, -, pop⟩ := environment_shadows sharing allocated
  obtain ⟨f, receives, writes⟩ := set "x"
  have bound : (sharing.store.frame ⟨0⟩).contains "x" = true := by with_unfolding_all rfl
  have reveals : sharing.env.Reveals sharing.store "x" ⟨0⟩ := by with_unfolding_all decide
  obtain rfl : ⟨0⟩ = f := (receives ⟨0⟩).mp (.inl ⟨bound, reveals⟩)
  exact ⟨allocated, (writes (.int 2)).seen _ (Environment.reveals_inner _ _ _), pop⟩

end Machine

end Protoscript

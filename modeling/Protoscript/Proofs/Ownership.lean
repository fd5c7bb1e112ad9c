import Protoscript.Proofs.CapturedFrames
import Protoscript.Proofs.Scoping

/-! # Ownership of captured frames

A captured frame belongs to its closure.  No other closure captured it, it is on no stack but
as the base of one that is for a call of its closure, and it changes only while such a stack is in
use.  It has the names that were visible where the closure was made, at first with the values that
they had there, and it keeps those names. -/

set_option autoImplicit false

namespace Protoscript

/-- What may change in a single change of the machine, as far as captured frames go. -/
structure Machine.Respects (m after : Machine) : Prop where
  store : m.store.Extends after.store
  names : ∀ c ∈ m.store.closures, ∀ name,
    (after.store.frame c.captured).contains name = (m.store.frame c.captured).contains name
  contents : ∀ c ∈ m.store.closures, after.store.frame c.captured ≠ m.store.frame c.captured →
    m.env.base = c.captured ∧ after.env = m.env
  created : ∀ c ∈ after.store.closures, c ∉ m.store.closures →
    ∀ name, (after.store.frame c.captured).get? name = m.get? name

/-- The machine is well formed, no frame is captured twice, and none above the base of the stack is
captured.  A statement may add to the innermost frame, so that must not be captured either. -/
structure Machine.Sound (e : Extent) (m : Machine) : Prop where
  wf : m.WellFormed
  distinct : m.store.Distinct
  based : m.store.Based m.env.base m.env
  inner : e = .statement → ¬ m.store.Captures m.env.inner

/-- What is true at every moment of a step that started on `m`. -/
structure Moment.SoundFrom (m : Machine) (μ : Moment) : Prop where
  wf : μ.machine.store.WellFormed
  distinct : μ.machine.store.Distinct
  later : m.store.Extends μ.machine.store
  placed : μ.machine.store.Sound m.env.base μ.machine.env μ.aside

/-- The discipline of captured frames. -/
def ownerDiscipline : Discipline where
  holds := Machine.Sound
  value := Store.Has
  named m name := (m.get? name).isSome = true
  rel := Machine.Scoped
  moment := Moment.SoundFrom
  next := Machine.Respects

namespace ownerDiscipline

variable {e : Extent} {m after : Machine}

/-! ## Single changes -/

theorem respects_of_frame_eq (store : m.store.Extends after.store)
    (closures : after.store.closures = m.store.closures)
    (same : ∀ c ∈ m.store.closures, after.store.frame c.captured = m.store.frame c.captured) :
    m.Respects after where
  store := store
  names c made name := by rw [same c made]
  contents c made changed := absurd (same c made) changed
  created c made new := absurd (closures ▸ made) new

theorem respects_of_store_eq (same : after.store = m.store) : m.Respects after := by
  refine respects_of_frame_eq ?_ ?_ ?_
  · rw [same]
    exact .refl _
  · rw [same]
  · intro c _
    rw [same]

/-- A change that makes no closure leaves the machine sound. -/
theorem sound_of_closures_eq (sound : m.Sound e) (wf : after.WellFormed) (env : after.env = m.env)
    (closures : after.store.closures = m.store.closures) : after.Sound e where
  wf := wf
  distinct := by
    unfold Store.Distinct
    rw [closures]
    exact sound.distinct
  based := by
    rw [env]
    refine ⟨rfl, ?_⟩
    unfold Store.Captures
    rw [closures]
    exact sound.based.above
  inner statement := by
    rw [env]
    unfold Store.Captures
    rw [closures]
    exact sound.inner statement

theorem stays_of_frames_eq (sound : m.Sound e) (stays : scopeDiscipline.Stays e m after)
    (closures : after.store.closures = m.store.closures)
    (frames : after.store.frames = m.store.frames) : ownerDiscipline.Stays e m after where
  holds := sound_of_closures_eq sound stays.holds stays.rel.stack.env closures
  rel := stays.rel
  next := respects_of_frame_eq stays.next.toExtends closures fun c _ => by
    rw [Store.frame, Store.frame, frames]

/-- Binding a name in a frame in use, if the name is there or the frame is the innermost one. -/
theorem stays_bind {f : FrameId} {name : String} {v : Value} (sound : m.Sound e)
    (has : m.store.Has v) (used : f ∈ m.env.frames)
    (owned : (m.store.frame f).contains name = true ∨ e = .statement ∧ f = m.env.inner) :
    ownerDiscipline.Stays e m { m with store := m.store.bind f name v } := by
  have allocated := sound.wf.env f used
  have stays := scopeDiscipline.stays_bind sound.wf has used owned
  have after := sound_of_closures_eq sound stays.holds rfl rfl
  refine ⟨after, stays.rel, stays.next.toExtends, ?_, ?_, ?_⟩
  · intro c made other
    rw [Bool.eq_iff_iff, Store.contains_frame_bind allocated]
    constructor
    · intro bound
      rcases bound with bound | ⟨rfl, rfl⟩
      · exact bound
      · rcases owned with bound | ⟨statement, inner⟩
        · exact bound
        · exact absurd ⟨c, made, inner⟩ (sound.inner statement)
    · exact .inl
  · intro c made changed
    refine ⟨?_, rfl⟩
    by_cases same : c.captured = f
    · rw [← same] at used
      exact (sound.based.eq_of_mem made used).symm
    · exact absurd (Store.frame_bind_of_ne m.store same name v) changed
  · intro c made new
    exact absurd made new

theorem stays_set {name : String} {v : Value} (sound : m.Sound e) (has : m.store.Has v)
    (owned : (m.get? name).isSome = true ∨ e = .statement) :
    ownerDiscipline.Stays e m (m.set name v) := by
  obtain ⟨f, used, written, target⟩ := m.exists_set_eq name v
  rw [written]
  exact stays_bind sound has used (Machine.owned_of_target target owned)

/-- The frame of a new closure is new, so no closure captured it before, and no stack has it. -/
theorem stays_newClosure (setting : Setting) (sound : m.Sound .expression) (d : Definition) :
    ownerDiscipline.Stays .expression m (m.newClosure d).2 := by
  have stays := ((scopeDiscipline.lawful setting).newClosure sound.wf d trivial).1
  have old : ∀ c ∈ m.store.closures, c.captured ≠ ⟨m.store.frames.size⟩ := by
    intro c made same
    exact sound.wf.store.not_captures_new ⟨c, made, same⟩
  have kept : ∀ c ∈ m.store.closures,
      (m.newClosure d).2.store.frame c.captured = m.store.frame c.captured :=
    fun c made => Store.frame_push_of_lt rfl (sound.wf.store.captured c made)
  refine ⟨⟨stays.holds, ?_, ?_, nofun⟩, stays.rel, stays.next.toExtends, ?_, ?_, ?_⟩
  · intro c made c' made' same
    rcases Array.mem_push.mp made with made | rfl
    · rcases Array.mem_push.mp made' with made' | rfl
      · exact sound.distinct c made c' made' same
      · exact absurd same (old c made)
    · rcases Array.mem_push.mp made' with made' | rfl
      · exact absurd same.symm (old c' made')
      · rfl
  · exact sound.based.of_extends stays.next.toExtends sound.wf.env
  · intro c made name
    rw [kept c made]
  · intro c made changed
    exact absurd (kept c made) changed
  · intro c made new name
    rcases Array.mem_push.mp made with made | rfl
    · exact absurd made new
    · have frame : (m.newClosure d).2.store.frame ⟨m.store.frames.size⟩ =
          m.env.flatten m.store :=
        Store.frame_push_self rfl
      rw [frame, Environment.get?_flatten]
      rfl

/-! ## Brackets -/

/-- The stack of the caller is as sound after the call. -/
theorem sound_of_rel {inside : Machine} (sound : m.Sound .expression)
    (later : m.store.Extends after.store) (holds : inside.Sound e)
    (store : inside.store = after.store) (env : after.env = m.env) : after.Sound .expression where
  wf := sound.wf.of_extends (store ▸ holds.wf.store) later env
  distinct := store ▸ holds.distinct
  based := by
    rw [env]
    exact sound.based.of_extends later sound.wf.env
  inner := nofun

theorem sound_push (sound : m.Sound e) : m.push.Sound .statement where
  wf := sound.wf.push
  distinct := sound.distinct
  based := by
    refine ⟨rfl, ?_⟩
    intro g used
    rcases List.mem_cons.mp used with rfl | used
    · exact sound.wf.store.not_captures_new
    · exact sound.based.above g used
  inner _ := sound.wf.store.not_captures_new

theorem respects_of_newFrame (sound : m.Sound e)
    (pushed : after.store = (m.store.newFrame .empty).2) : m.Respects after := by
  refine respects_of_frame_eq ?_ ?_ ?_
  · rw [pushed]
    exact .newFrame m.store .empty
  · rw [pushed]
    rfl
  · intro c made
    rw [pushed]
    exact Store.frame_push_of_lt rfl (sound.wf.store.captured c made)

theorem lawful (setting : Setting) : ownerDiscipline.Lawful setting := by
  have scoping := scopeDiscipline.lawful setting
  exact {
    part := fun _ _ => trivial
    called := fun _ _ => trivial
    refl := .refl
    trans := .trans
    widen := .widen
    narrow := fun sound => ⟨sound.wf, sound.distinct, sound.based, nofun⟩
    reopen := by
      intro m after sound kept holds
      refine ⟨holds.wf, holds.distinct, holds.based, ?_⟩
      intro statement
      rw [kept.stack.env]
      have allocated := sound.wf.env _ m.env.inner_mem_frames
      exact kept.store.toExtends.not_captures allocated (sound.inner statement)
    value_mono := scoping.value_mono
    named_mono := scoping.named_mono
    moment_of := by
      intro m after sound kept
      refine ⟨sound.wf.store, sound.distinct, kept.store.toExtends, ?_⟩
      rw [← kept.stack.env]
      exact sound.based
    moment_mono := by
      intro m m' μ kept moment
      refine ⟨moment.wf, moment.distinct, kept.store.toExtends.trans moment.later, ?_⟩
      rw [← kept.stack.env]
      exact moment.placed
    plain := scoping.plain
    function := scoping.function
    binding := fun sound => scoping.binding sound.wf
    member := fun sound => scoping.member sound.wf
    named_of_binding := fun _ _ bound => bound
    console := fun sound c uses =>
      stays_of_frames_eq sound (scoping.console sound.wf c uses) rfl rfl
    newObject := fun sound =>
      ⟨stays_of_frames_eq sound (scoping.newObject sound.wf).1 rfl rfl,
        (scoping.newObject sound.wf).2⟩
    newClosure := fun sound d _ =>
      ⟨stays_newClosure setting sound d, (scoping.newClosure sound.wf d trivial).2⟩
    setMember := fun sound object has written =>
      stays_of_frames_eq sound (scoping.setMember sound.wf object has written)
        (Store.closures_setMember written) (Store.frames_setMember written)
    set := fun sound has name _ => stays_set sound has (.inr rfl)
    set_named := fun sound has bound => stays_set sound has (.inl bound)
    create := fun {m v} sound has name =>
      stays_bind sound has m.env.inner_mem_frames (.inr ⟨rfl, rfl⟩)
    scope := fun {m} sound => {
      holds := sound_push sound
      value := (scoping.scope sound.wf).value
      next := respects_of_newFrame sound rfl
      moment := by
        intro μ moment
        refine ⟨moment.wf, moment.distinct, ?_, ?_⟩
        · exact (scopeDiscipline.remembers_push m).toExtends.trans moment.later
        · rw [Moment.under, List.append_nil, ← m.env.base_push ⟨m.store.frames.size⟩]
          exact moment.placed
      leaves := by
        intro after holds kept
        have rel := scopeDiscipline.scoped_pop kept
        exact ⟨sound_of_rel sound rel.store.toExtends holds rfl rel.stack.env, rel,
          respects_of_store_eq rfl⟩
      store := fun _ => rfl }
    captured := fun {m c} sound has => {
      holds := {
        wf := ((scoping.captured sound.wf has).holds)
        distinct := sound.distinct
        based := ⟨rfl, nofun⟩
        inner := nofun }
      value := fun v has => has
      next := respects_of_store_eq rfl
      moment := by
        intro μ moment
        refine ⟨moment.wf, moment.distinct, moment.later, ?_⟩
        have made := moment.later.closures c has
        exact moment.placed.append made (sound.based.of_extends moment.later sound.wf.env)
      leaves := by
        intro after holds kept
        obtain ⟨-, rel, -⟩ := (scoping.captured sound.wf has).leaves after holds.wf kept
        exact ⟨sound_of_rel sound rel.store.toExtends holds rfl rfl, rel, respects_of_store_eq rfl⟩
      store := fun _ => rfl }
    counted := fun {m} sound allowed d closure => {
      holds := sound_of_closures_eq sound ⟨sound.wf.store, sound.wf.env⟩ rfl rfl
      value := fun v has => has
      next := respects_of_store_eq rfl
      moment := by
        intro μ moment
        refine ⟨moment.wf, moment.distinct, moment.later, ?_⟩
        rw [Moment.under, List.append_nil]
        exact moment.placed
      leaves := by
        intro after holds kept
        have bracketed := scoping.counted sound.wf allowed d closure
        obtain ⟨-, rel, -⟩ := bracketed.leaves after holds.wf kept
        exact ⟨sound_of_rel sound rel.store.toExtends holds rfl kept.stack.env, rel,
          respects_of_store_eq rfl⟩
      store := fun _ => rfl } }

/-- Between the steps of a session there is only the stack that is for no call, and none of its
frames is captured. -/
theorem rooted : ownerDiscipline.Rooted
    (fun m => m.Sound .statement ∧ ¬ m.store.Captures m.env.base) Moment.Owned where
  code _ := trivial
  holds := And.left
  moment := by
    intro m μ root moment
    obtain ⟨sound, free⟩ := root
    have allocated := sound.wf.env m.env.base (Environment.mem_frames_iff.mpr (.inr rfl))
    have free := moment.later.not_captures allocated free
    exact {
      store := moment.wf
      distinct := fun c made d made' other same => other (moment.distinct c made d made' same)
      owner := fun c made stack among used =>
        moment.placed.owner moment.distinct free made among used
      based := fun c e among => moment.placed.based among }
  stays := by
    intro m after root holds kept
    obtain ⟨sound, free⟩ := root
    have later := kept.store.toExtends
    have inner := sound.wf.env _ m.env.inner_mem_frames
    have base := sound.wf.env m.env.base (Environment.mem_frames_iff.mpr (.inr rfl))
    refine ⟨⟨holds.wf, holds.distinct, holds.based, ?_⟩, ?_⟩
    · intro _
      rw [kept.stack.env]
      exact later.not_captures inner (sound.inner rfl)
    · rw [kept.stack.env]
      exact later.not_captures base free
  fresh := by
    intro m root
    obtain ⟨sound, -⟩ := root
    have new : ¬ m.fresh.store.Captures ⟨m.store.frames.size⟩ := sound.wf.store.not_captures_new
    exact ⟨⟨⟨sound.wf.fresh, sound.distinct, ⟨rfl, nofun⟩, fun _ => new⟩, new⟩,
      respects_of_newFrame sound rfl⟩

end ownerDiscipline

/-! ## The history of a captured frame -/

/-- From `μ` to `ν` the closure is made.  Its frame answers every look-up as the environment in
which it is made does. -/
structure Closure.Made (c : Closure) (μ ν : Moment) : Prop where
  before : c ∉ μ.machine.store.closures
  after : c ∈ ν.machine.store.closures
  lookup : ∀ name, (ν.machine.store.frame c.captured).get? name = μ.machine.get? name

/-- Through a whole history, captured frames belong to their closures. -/
structure OwnsCaptured (history : List Moment) : Prop where
  moments : ∀ μ ∈ history, μ.Owned
  /-- Every closure there is was made before, and its frame has the names that were visible then. -/
  made : ∀ before ξ after, history = before ++ ξ :: after → ∀ c ∈ ξ.machine.store.closures,
    ∃ front μ ν back, before ++ [ξ] = front ++ μ :: ν :: back ∧ c.Made μ ν ∧
      ∀ name, (ξ.machine.store.frame c.captured).contains name = (μ.machine.get? name).isSome
  /-- A captured frame changes only while the stack in use is based on it. -/
  contents : ∀ before μ ν after, history = before ++ μ :: ν :: after →
    ∀ c ∈ μ.machine.store.closures,
      ν.machine.store.frame c.captured ≠ μ.machine.store.frame c.captured →
        μ.machine.env.base = c.captured ∧ ν.machine.env = μ.machine.env

open Eval (Follows)

theorem exists_made {start : Moment} (none : ∀ c, c ∉ start.machine.store.closures)
    {before : List Moment} {ξ : Moment}
    (chain : (before ++ [ξ]).IsChain (Follows Machine.Respects))
    (first : (before ++ [ξ]).head? = some start) {c : Closure}
    (known : c ∈ ξ.machine.store.closures) :
    ∃ front μ ν back, before ++ [ξ] = front ++ μ :: ν :: back ∧ c.Made μ ν ∧
      ∀ name, (ξ.machine.store.frame c.captured).contains name = (μ.machine.get? name).isSome := by
  induction before using List.reverseRecOn generalizing ξ with
  | nil =>
    cases first
    exact absurd known (none c)
  | append_singleton before μ ih =>
    have split : before ++ [μ] ++ [ξ] = before ++ μ :: ξ :: [] := by simp
    have last : μ.machine.Respects ξ.machine := by
      rw [split] at chain
      exact List.isChain_iff_forall_rel_of_append_cons_cons.mp chain rfl
    by_cases earlier : c ∈ μ.machine.store.closures
    · have start' : (before ++ [μ]).head? = some start := by
        rw [← first, List.head?_append_of_ne_nil (before ++ [μ]) (by simp)]
      obtain ⟨front, μ', ν, back, whole, made, names⟩ := ih chain.left_of_append start' earlier
      refine ⟨front, μ', ν, back ++ [ξ], ?_, made, ?_⟩
      · rw [whole]
        simp
      · intro name
        rw [last.names c earlier name, names name]
    · have lookup := last.created c known earlier
      refine ⟨before, μ, ξ, [], split, ⟨earlier, known, lookup⟩, ?_⟩
      intro name
      rw [Bindings.contains, lookup name]

/-- Captured frames belong to their closures through every session. -/
theorem captured_frames_are_owned (setting : Setting) (inputs : List String)
    (steps : List (Nat × Step)) :
    OwnsCaptured ((session setting steps).history (.start inputs)) := by
  have none : ∀ c, c ∉ (Machine.start inputs).store.closures := Array.not_mem_empty
  have free : ¬ (Machine.start inputs).store.Captures (Machine.start inputs).env.base := by
    intro captured
    obtain ⟨c, made, -⟩ := captured
    exact none c made
  have sound : (Machine.start inputs).Sound .statement := {
    wf := .start inputs
    distinct := fun c made => absurd made (none c)
    based := ⟨rfl, nofun⟩
    inner := fun _ => free }
  have lawful := ownerDiscipline.lawful setting
  have chain := (ownerDiscipline.rooted.course_session lawful steps ⟨sound, free⟩).chain
  refine ⟨ownerDiscipline.rooted.moments_session lawful steps ⟨sound, free⟩, ?_, ?_⟩
  · intro before ξ after whole c known
    have split : (session setting steps).history (.start inputs) = before ++ [ξ] ++ after := by
      rw [whole]
      simp
    have first : (before ++ [ξ]).head? = some (.of (.start inputs)) := by
      rw [← List.head?_append_of_ne_nil _ (by simp), ← split]
      rfl
    rw [split] at chain
    exact exists_made none chain.left_of_append first known
  · intro before μ ν after whole c known changed
    have next := List.isChain_iff_forall_rel_of_append_cons_cons.mp chain whole
    exact next.contents c known changed

end Protoscript

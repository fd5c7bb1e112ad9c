import Protoscript.Proofs.Likeness.Equal
import Protoscript.Session

/-! # Runs up to a likeness

Runs of programs that are the same up to a likeness end the same, on related consoles; or the left
one is cut short, and then its console is related to one that the right run comes through before it
ends: `sameRun`. -/

set_option autoImplicit false

namespace Protoscript

/-- How a run ends that stops so. -/
def Stop.ending : Stop → Ending
  | error e => .failed e
  | outOfFuel => .outOfFuel

/-- How a run ends of which this comes. -/
def Outcome.ending {α : Type} : Outcome α → Ending
  | ok _ _ => .finished
  | error s _ => s.ending

theorem Program.run_eq (p : Program) (maxDepth : Option Nat) (inputs : List String) (fuel : Nat) :
    p.run maxDepth inputs fuel =
      let out := (Eval.main (p.setting maxDepth) fuel).run (.start inputs)
      ⟨out.ending, out.machine.console⟩ := by
  unfold Program.run
  split
  · next ended => rw [ended]; rfl
  · next ended => rw [ended]; rfl
  · next ended => rw [ended]; rfl

open Eval (Course)

namespace Likeness

variable {L : Likeness} {setting setting' : Setting} {fuel fuel' : Nat}

/-- A run of `main` starts afresh, so it is enough that stores and consoles are the same. -/
theorem course_main (lawful : L.Lawful setting setting') (fuelled : L.Fuelled fuel fuel')
    {f : Function} (found : setting.functions.get? "main" 0 = some f) {m n : Machine}
    (store : L.SameStore m.store n.store) (console : L.console m.console n.console) :
    Course L.Keeps Grows m (Eval.main setting fuel)
      (L.Agree (fun _ _ => True) (Eval.main setting' fuel') n) := by
  have function := lawful.main
  rw [found] at function
  generalize found' : setting'.functions.get? "main" 0 = main' at function
  cases function with
  | @some _ g function =>
    have alike := function.same
    have called := (matched lawful fuelled).invoke alike .none .nil rfl .none alike.line
    let body := Eval.invoke setting fuel f.toDefinition none [] none f.position.line >>=
      fun _ => pure ()
    let body' := Eval.invoke setting' fuel' g.toDefinition none [] none g.position.line >>=
      fun _ => pure ()
    have whole : L.Matches body body' fun _ _ => True := .bind called fun _ _ _ => .pure trivial
    have fresh : L.SameMachine (m.record (.started setting.functions.size)).fresh
        (n.record (.started setting'.functions.size)).fresh :=
      ⟨store.newFrame .empty, .ofFrame store.frames.next, rfl, lawful.started console⟩
    have logged : Course L.Keeps Grows m (Eval.record (.started setting.functions.size))
        (· = .ok () (m.record (.started setting.functions.size))) :=
      .change ⟨_, store⟩ (.record _ _) rfl
    have renewed : Course L.Keeps Grows (m.record (.started setting.functions.size))
        (Eval.modify Machine.fresh)
        (· = .ok () (m.record (.started setting.functions.size)).fresh) :=
      .change ⟨_, fresh.store⟩ (.refl _) rfl
    unfold Eval.main
    rw [found, found']
    refine logged.bind ?_ (by rintro _ _ ⟨⟩)
    rintro _ _ ⟨⟩
    refine renewed.bind ?_ (by rintro _ _ ⟨⟩)
    rintro _ _ ⟨⟩
    refine (whole _ _ fresh).weaken (fun _ kept => kept) ?_
    intro out agree
    have renewed := Agree.after (y := Eval.modify Machine.fresh) (g := fun _ => body') rfl agree
    exact Agree.after (y := Eval.record (.started setting'.functions.size))
      (g := fun _ => Eval.modify Machine.fresh >>= fun _ => body') rfl renewed

/-- The program may lack `main` if the likeness relates the line of that error to itself. -/
theorem matches_main (lawful : L.Lawful setting setting') (fuelled : L.Fuelled fuel fuel')
    (missing : setting.functions.get? "main" 0 = none → L.code.line 0 0) :
    L.Matches (Eval.main setting fuel) (Eval.main setting' fuel') fun _ _ => True := by
  cases found : setting.functions.get? "main" 0 with
  | some f => exact fun _ _ same => course_main lawful fuelled found same.store same.console
  | none =>
    have function := lawful.main
    rw [found] at function
    unfold Eval.main
    generalize setting'.functions.get? "main" 0 = main' at function ⊢
    cases function with
    | none =>
      rw [found]
      exact .fail _ (missing found)

inductive SameEnding (L : Likeness) : Ending → Ending → Prop
  | finished : SameEnding L .finished .finished
  | failed (cause : RuntimeError.Cause) {line line' : Nat} (lines : L.code.line line line') :
    SameEnding L (.failed ⟨cause, line⟩) (.failed ⟨cause, line'⟩)
  | outOfFuel : SameEnding L .outOfFuel .outOfFuel

theorem Stops.sameEnding {s s' : Stop} (stops : L.Stops s s') :
    L.SameEnding s.ending s'.ending := by
  cases stops with
  | outOfFuel => exact .outOfFuel
  | error cause lines => exact .failed cause lines

theorem SameEnding.eq (lines : ∀ {i j}, L.code.line i j → i = j) {r r' : Ending}
    (same : L.SameEnding r r') : r = r' := by
  cases same with
  | finished => rfl
  | failed cause related => rw [lines related]
  | outOfFuel => rfl

/-- Two runs end the same, or the left one is cut short on a console that the right one has by
then. -/
inductive SameRun (L : Likeness) (r r' : Run) : Prop
  | same (endings : L.SameEnding r.ending r'.ending) (consoles : L.console r.console r'.console)
  | cut {s : Stop} (ending : r.ending = s.ending) {d : Console} (cut : L.cut s r.console d)
      (before : d.Before r'.console)

theorem matches_main_itself (setting : Setting) (fuel : Nat) :
    itself.Matches (Eval.main setting fuel) (Eval.main setting fuel) fun _ _ => True :=
  matches_main (lawful_itself setting) (.inl rfl) fun _ => rfl

theorem sameRun {p q : Program} {low high : Option Nat} {inputs inputs' : List String}
    (lawful : L.Lawful (p.setting low) (q.setting high)) (fuelled : L.Fuelled fuel fuel')
    (missing : p.functions.get? "main" 0 = none → L.code.line 0 0)
    (start : L.SameMachine (.start inputs) (.start inputs')) :
    L.SameRun (p.run low inputs fuel) (q.run high inputs' fuel') := by
  have agree := (matches_main lawful fuelled missing _ _ start).ends
  have before := before_of_matches (matches_main_itself (q.setting high) fuel') (.start inputs')
  rw [p.run_eq, q.run_eq]
  generalize (Eval.main (p.setting low) fuel).run (.start inputs) = out at agree ⊢
  cases agree with
  | ok right machines =>
    dsimp only
    rw [right]
    exact .same .finished machines.console
  | error right stops machines =>
    dsimp only
    rw [right]
    exact .same stops.sameEnding machines.console
  | cut _ passed cut => exact .cut rfl cut (before _ passed)

end Likeness

end Protoscript

/-
Programs that touch a shared state in critical sections only, and what holds
of the state and of their results however their sections interleave.
-/
import Mathlib.Data.List.Basic

namespace Interleaving

variable {S R C : Type}

/-- A program is at its end or waits for the lock: its next section goes on by
what it finds in the state and leaves it updated. -/
inductive Program (S R : Type) where
  | done (result : R)
  | locked (next : S → Program S R) (update : S → S)

namespace Program

/-- What a program returns if nobody else runs any more. -/
def finish : Program S R → S → R
  | .done result, _ => result
  | .locked next update, s => (next s).finish (update s)

/-- Every section keeps the invariant where it holds, and every result that
can be reached that way is good. -/
def Right (Inv : S → Prop) (good : R → Prop) : Program S R → Prop
  | .done result => good result
  | .locked next update => ∀ s, Inv s → Inv (update s) ∧ (next s).Right Inv good

variable {Inv : S → Prop} {good : R → Prop}

theorem Right.finish {p : Program S R} (h : p.Right Inv good) {s : S}
    (hs : Inv s) : good (p.finish s) := by
  induction p generalizing s with
  | done result => exact h
  | locked next update ih =>
    obtain ⟨hupdate, hnext⟩ := h s hs
    exact ih s hnext hupdate

end Program

/-- The state and the programs of all calls so far. -/
structure World (S R C : Type) where
  state : S
  tasks : List (C × Program S R) := []

/-- A call begins, or the call of an index runs its next section. -/
inductive Event (C : Type) where
  | call (c : C)
  | advance (index : Nat)

def World.step (program : C → Program S R) (w : World S R C) :
    Event C → World S R C
  | .call c => { w with tasks := w.tasks ++ [(c, program c)] }
  | .advance index =>
    match w.tasks[index]? with
    | some (c, .locked next update) =>
      ⟨update w.state, w.tasks.set index (c, next w.state)⟩
    | _ => w

def run (program : C → Program S R) (start : S) (events : List (Event C)) :
    World S R C :=
  events.foldl (World.step program) { state := start }

/-- What holds along every interleaving. -/
structure World.Sound (Inv : S → Prop) (good : C → R → Prop)
    (w : World S R C) : Prop where
  state : Inv w.state
  tasks : ∀ task ∈ w.tasks, task.2.Right Inv (good task.1)

variable {Inv : S → Prop} {good : C → R → Prop} {program : C → Program S R}
  (hprograms : ∀ c, (program c).Right Inv (good c))

include hprograms

theorem World.Sound.step {w : World S R C} (h : w.Sound Inv good)
    (event : Event C) : (w.step program event).Sound Inv good := by
  cases event with
  | call c =>
    refine ⟨h.state, fun task htask => ?_⟩
    rcases List.mem_append.mp htask with hold | hnew
    · exact h.tasks task hold
    · rw [List.mem_singleton.mp hnew]
      exact hprograms c
  | advance index =>
    rw [World.step]
    split
    case h_1 c next update htask =>
      obtain ⟨hupdate, hnext⟩ :=
        h.tasks _ (List.mem_of_getElem? htask) w.state h.state
      refine ⟨hupdate, fun task hmem => ?_⟩
      rcases List.mem_or_eq_of_mem_set hmem with hold | rfl
      · exact h.tasks task hold
      · exact hnext
    case h_2 => exact h

theorem sound_run {start : S} (hstart : Inv start)
    (events : List (Event C)) : (run program start events).Sound Inv good := by
  refine List.foldlRecOn (motive := World.Sound Inv good) events _ ?_ ?_
  · exact ⟨hstart, fun task htask => absurd htask List.not_mem_nil⟩
  · exact fun w h event _ => h.step hprograms event

end Interleaving

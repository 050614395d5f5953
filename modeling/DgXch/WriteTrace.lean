/-
Procedures that change a state through single writes.  A run of a procedure is
the list of its writes, so a process that is killed between two of them leaves
the state after some of them.  A triple states, next to the usual pre- and
postcondition, what holds just after each single write.
-/
import Mathlib.Data.List.Basic

namespace WriteTrace

open List

/-- States that single writes change. -/
class Writable (S : Type) (W : outParam Type) where
  write : S → W → S

/-- A procedure: the writes it makes from a state, and its result. -/
def Proc (S W E A : Type) : Type := S → List W × Except E A

section

variable {S W E A B X : Type} [Writable S W]

/-- The state after a sequence of writes. -/
def writes (s : S) (ws : List W) : S := ws.foldl Writable.write s

theorem writes_append (s : S) (ws ws' : List W) :
    writes s (ws ++ ws') = writes (writes s ws) ws' :=
  foldl_append

variable {ws : List W} {s : S}

/-- What every write of a sequence keeps, the sequence keeps. -/
theorem writes_keep {I : S → Prop}
    (h : ∀ s, ∀ w ∈ ws, I s → I (Writable.write s w)) (hs : I s) :
    I (writes s ws) :=
  List.foldlRecOn ws _ hs fun s hs w hw => h s w hw hs

variable {f : A → Proc S W E B}

namespace Proc

variable (p : Proc S W E A)

/-- The state that a run leaves. -/
def exec (s : S) : S := writes s (p s).1

/-- The state of a run that is killed after some of its writes. -/
def killed (made : Nat) (s : S) : S := writes s ((p s).1.take made)

protected def bind (f : A → Proc S W E B) : Proc S W E B :=
  fun s =>
    match (p s).2 with
    | .error e => ((p s).1, .error e)
    | .ok a => ((p s).1 ++ (f a (p.exec s)).1, (f a (p.exec s)).2)

instance : Monad (Proc S W E) where
  pure a := fun _ => ([], .ok a)
  bind := Proc.bind

def write (w : W) : Proc S W E Unit := fun _ => ([w], .ok ())

def read (f : S → A) : Proc S W E A := fun s => ([], .ok (f s))

/-- Read the state; the read may fail. -/
def tryRead (f : S → Except E A) : Proc S W E A := fun s => ([], f s)

/-- Run a procedure for every element of a list. -/
def each (f : X → Proc S W E Unit) : List X → Proc S W E Unit
  | [] => pure ()
  | x :: xs => f x >>= fun _ => each f xs

/-- Run a procedure for every element of a list, with an accumulator. -/
def fold (f : A → X → Proc S W E A) : A → List X → Proc S W E A
  | a, [] => pure a
  | a, x :: xs => f a x >>= fun a' => fold f a' xs

theorem each_eq_fold {f : X → Proc S W E Unit} {xs : List X} :
    each f xs = fold (fun _ => f) () xs := by
  induction xs with
  | nil => rfl
  | cons x xs ih =>
    rw [each, ih]
    rfl

open Proc

theorem exec_bind {p : Proc S W E A} {a : A} (h : (p s).2 = .ok a) :
    (p >>= f).exec s = (f a).exec (p.exec s) := by
  change writes s (Proc.bind p f s).1 = _
  rw [Proc.bind, h]
  exact writes_append _ _ _

end Proc

/-- A property of every single write of a run and the state just after it. -/
def Along (C : W → S → Prop) : S → List W → Prop
  | _, [] => True
  | s, w :: ws => C w (Writable.write s w) ∧ Along C (Writable.write s w) ws

variable {C C' : W → S → Prop} {P P' : S → Prop} {Q Q' : A → S → Prop}

theorem Along.append {ws' : List W} (h : Along C s ws)
    (h' : Along C (writes s ws) ws') : Along C s (ws ++ ws') := by
  induction ws generalizing s with
  | nil => exact h'
  | cons w ws ih => exact ⟨h.1, ih h.2 h'⟩

theorem Along.imp (h : Along C s ws) (himp : ∀ {w s}, C w s → C' w s) :
    Along C' s ws := by
  induction ws generalizing s with
  | nil => trivial
  | cons w ws ih => exact ⟨himp h.1, ih h.2⟩

theorem along_of_begins
    (h : ∀ made w, made ++ [w] <+: ws → C w (writes s (made ++ [w]))) :
    Along C s ws := by
  induction ws generalizing s with
  | nil => trivial
  | cons w ws ih =>
    refine ⟨h [] w ?_, ih fun made v hmade => ?_⟩
    · rw [nil_append, cons_prefix_cons]
      exact ⟨rfl, nil_prefix⟩
    · exact h (w :: made) v (cons_prefix_cons.mpr ⟨rfl, hmade⟩)

/-- A killed run has made no write, or stands just after one. -/
theorem Along.take (h : Along C s ws) (made : Nat) :
    ws.take made = [] ∨ ∃ w, (ws.take made).getLast? = some w ∧
      C w (writes s (ws.take made)) := by
  induction ws generalizing s made with
  | nil => exact .inl take_nil
  | cons w ws ih =>
    cases made with
    | zero => exact .inl rfl
    | succ made =>
      right
      rw [take_succ_cons]
      rcases ih h.2 made with hnil | ⟨v, hlast, hv⟩
      · rw [hnil]
        exact ⟨w, rfl, h.1⟩
      · refine ⟨v, ?_, hv⟩
        rw [getLast?_cons, hlast, Option.getD_some]

/-- From `P` the procedure succeeds with `Q`, and `C` holds just after each of
its writes. -/
def Triple (P : S → Prop) (p : Proc S W E A) (C : W → S → Prop)
    (Q : A → S → Prop) : Prop :=
  ∀ s, P s → Along C s (p s).1 ∧ ∃ a, (p s).2 = .ok a ∧ Q a (p.exec s)

/-- A triple that is silent about the single writes. -/
abbrev Ends (P : S → Prop) (p : Proc S W E A) (Q : A → S → Prop) : Prop :=
  Triple P p (fun _ _ => True) Q

namespace Triple

variable {p : Proc S W E A}

theorem pure {a : A} (h : ∀ s, P s → Q a s) :
    Triple P (pure a : Proc S W E A) C Q :=
  fun s hs => ⟨trivial, a, rfl, h s hs⟩

theorem write {w : W} {Q : Unit → S → Prop}
    (h : ∀ s, P s → C w (Writable.write s w) ∧ Q () (Writable.write s w)) :
    Triple P (Proc.write w : Proc S W E Unit) C Q :=
  fun s hs => ⟨⟨(h s hs).1, trivial⟩, (), rfl, (h s hs).2⟩

theorem read {f : S → A} (h : ∀ s, P s → Q (f s) s) :
    Triple P (Proc.read f : Proc S W E A) C Q :=
  fun s hs => ⟨trivial, f s, rfl, h s hs⟩

theorem tryRead {f : S → Except E A} (h : ∀ s, P s → ∃ a, f s = .ok a ∧ Q a s) :
    Triple P (Proc.tryRead f : Proc S W E A) C Q :=
  fun s hs => ⟨trivial, h s hs⟩

variable {R : B → S → Prop}

theorem bind (hp : Triple P p C Q) (hf : ∀ a, Triple (Q a) (f a) C R) :
    Triple P (p >>= f) C R := by
  intro s hs
  obtain ⟨halong, a, hok, ha⟩ := hp s hs
  obtain ⟨halong', b, hok', hb⟩ := hf a _ ha
  have hrun : (p >>= f) s =
      ((p s).1 ++ (f a (p.exec s)).1, (f a (p.exec s)).2) := by
    change Proc.bind p f s = _
    rw [Proc.bind, hok]
  refine ⟨?_, b, ?_, ?_⟩
  · rw [hrun]
    exact halong.append halong'
  · rw [hrun]
    exact hok'
  · rw [Proc.exec, hrun, writes_append]
    exact hb

/-- A fact in the precondition. -/
theorem of_and {φ : Prop} (h : φ → Triple P p C Q) :
    Triple (fun s => φ ∧ P s) p C Q :=
  fun s hs => h hs.1 s hs.2

theorem of_exists {P : X → S → Prop} (h : ∀ x, Triple (P x) p C Q) :
    Triple (fun s => ∃ x, P x s) p C Q :=
  fun s ⟨x, hs⟩ => h x s hs

theorem consequence (h : Triple P p C Q) (hP : ∀ s, P' s → P s)
    (hC : ∀ {w s}, C w s → C' w s) (hQ : ∀ a s, Q a s → Q' a s) :
    Triple P' p C' Q' := by
  intro s hs
  obtain ⟨halong, a, hok, ha⟩ := h s (hP s hs)
  exact ⟨halong.imp hC, a, hok, hQ a _ ha⟩

/-- A read, and what it is known to return. -/
theorem read_bind {f : S → A} {g : A → Proc S W E B} (φ : A → Prop)
    (h : ∀ s, P s → φ (f s)) (hg : ∀ a, φ a → Triple P (g a) C R) :
    Triple P (Proc.read f >>= g) C R :=
  bind (read fun s hs => ⟨h s hs, hs⟩) fun a => of_and (hg a)

/-- A loop, with an invariant over the elements already done. -/
theorem fold {f : A → X → Proc S W E A} (I : List X → A → S → Prop)
    (xs : List X) (h : ∀ done a x rest, xs = done ++ x :: rest →
      Triple (I done a) (f a x) C (I (done ++ [x]))) (a : A) :
    Triple (I [] a) (Proc.fold f a xs) C (I xs) := by
  have hall : ∀ done rest a, xs = done ++ rest →
      Triple (I done a) (Proc.fold f a rest) C (I xs) := by
    intro done rest
    induction rest generalizing done with
    | nil =>
      intro a hxs
      rw [hxs, append_nil]
      exact Triple.pure fun _ => id
    | cons x rest ih =>
      intro a hxs
      refine Triple.bind (h done a x rest hxs) fun a' => ih _ a' ?_
      rw [append_assoc]
      exact hxs
  exact hall [] xs a rfl

theorem each {f : X → Proc S W E Unit} (I : List X → S → Prop) (xs : List X)
    (h : ∀ done x rest, xs = done ++ x :: rest →
      Triple (I done) (f x) C fun _ => I (done ++ [x])) :
    Triple (I []) (Proc.each f xs) C fun _ => I xs := by
  rw [Proc.each_eq_fold]
  exact fold (fun done _ => I done) xs (fun done _ => h done) ()

end Triple

/-- Every write that a procedure can make, in any state and whether it succeeds
or not. -/
def Proc.Makes (p : Proc S W E A) (φ : W → Prop) : Prop :=
  ∀ s, ∀ w ∈ (p s).1, φ w

namespace Proc.Makes

variable {φ : W → Prop} {p : Proc S W E A}

theorem pure {a : A} : (pure a : Proc S W E A).Makes φ :=
  fun _ _ h => absurd h not_mem_nil

omit [Writable S W] in
theorem read {f : S → A} : (read f : Proc S W E A).Makes φ :=
  fun _ _ h => absurd h not_mem_nil

omit [Writable S W] in
theorem tryRead {f : S → Except E A} : (tryRead f : Proc S W E A).Makes φ :=
  fun _ _ h => absurd h not_mem_nil

omit [Writable S W] in
theorem write {w : W} (h : φ w) : (write w : Proc S W E Unit).Makes φ :=
  fun _ _ hw => mem_singleton.mp hw ▸ h

theorem bind (hp : p.Makes φ) (hf : ∀ a, (f a).Makes φ) :
    (p >>= f).Makes φ := by
  intro s w hw
  change w ∈ (Proc.bind p f s).1 at hw
  unfold Proc.bind at hw
  split at hw
  · exact hp s w hw
  · rcases mem_append.mp hw with h | h
    · exact hp s w h
    · exact hf _ _ w h

theorem fold {f : A → X → Proc S W E A} (h : ∀ a x, (f a x).Makes φ)
    (xs : List X) (a : A) : (fold f a xs).Makes φ := by
  induction xs generalizing a with
  | nil => exact pure
  | cons x xs ih => exact bind (h a x) fun _ => ih _

theorem each {f : X → Proc S W E Unit} (h : ∀ x, (f x).Makes φ)
    (xs : List X) : (each f xs).Makes φ := by
  rw [each_eq_fold]
  exact fold (fun _ => h) xs ()

/-- What the writes of a procedure keep, the procedure keeps. -/
theorem keeps (hp : p.Makes φ) {I : S → Prop}
    (h : ∀ s w, φ w → I s → I (Writable.write s w)) (hs : I s) :
    I (p.exec s) := by
  exact writes_keep (fun s' w hw => h s' w (hp s w hw)) hs

end Proc.Makes

end

section Part

variable {S W T V E A : Type} [Writable S W] [Writable T V]

/-- A part of a state that has writes of its own. -/
structure Part (S W T V : Type) [Writable S W] [Writable T V] where
  get : S → T
  op : V → W
  get_write : ∀ s v, get (Writable.write s (op v)) = Writable.write (get s) v

/-- A procedure of a part, run on the whole. -/
def Part.lift (part : Part S W T V) (p : Proc T V E A) : Proc S W E A :=
  fun s => ((p (part.get s)).1.map part.op, (p (part.get s)).2)

theorem Part.get_writes (part : Part S W T V) (s : S) (vs : List V) :
    part.get (writes s (vs.map part.op)) = writes (part.get s) vs := by
  induction vs generalizing s with
  | nil => rfl
  | cons v vs ih =>
    rw [map_cons]
    change part.get (writes (Writable.write s (part.op v)) _) = _
    rw [ih, part.get_write]
    rfl

theorem Proc.Makes.lift {part : Part S W T V} {p : Proc T V E A}
    {φ : W → Prop} (h : p.Makes fun v => φ (part.op v)) :
    (part.lift p).Makes φ := by
  intro s w hw
  obtain ⟨v, hv, rfl⟩ := mem_map.mp hw
  exact h _ v hv

/-- Lifting a triple; the rest of the state is the frame. -/
theorem Triple.lift (part : Part S W T V) {F : S → Prop}
    (hF : ∀ s v, F s → F (Writable.write s (part.op v)))
    {P : T → Prop} {p : Proc T V E A} {C : V → T → Prop} {Q : A → T → Prop}
    (h : Triple P p C Q) :
    Triple (fun s => F s ∧ P (part.get s)) (part.lift p)
      (fun w s => F s ∧ ∃ v, w = part.op v ∧ C v (part.get s))
      (fun a s => F s ∧ Q a (part.get s)) := by
  rintro s ⟨hframe, hs⟩
  obtain ⟨halong, a, hok, ha⟩ := h _ hs
  have hall : ∀ (vs : List V) (s : S), F s → Along C (part.get s) vs →
      Along (fun w s => F s ∧ ∃ v, w = part.op v ∧ C v (part.get s)) s
        (vs.map part.op) ∧ F (writes s (vs.map part.op)) := by
    intro vs
    induction vs with
    | nil => exact fun s hs _ => ⟨trivial, hs⟩
    | cons v vs ih =>
      intro s hs hvs
      have hget := part.get_write s v
      obtain ⟨hrest, hend⟩ := ih _ (hF s v hs) (hget.symm ▸ hvs.2)
      exact ⟨⟨⟨hF s v hs, v, rfl, hget.symm ▸ hvs.1⟩, hrest⟩, hend⟩
  obtain ⟨halong', hend⟩ := hall _ s hframe halong
  refine ⟨halong', a, hok, hend, ?_⟩
  rw [Proc.exec]
  change Q a (part.get (writes s (List.map _ _)))
  rw [part.get_writes]
  exact ha

end Part

end WriteTrace

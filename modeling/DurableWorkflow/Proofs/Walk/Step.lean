import DurableWorkflow.Course
import Mathlib.Logic.Relation

/-!
# Single steps

How walks and courses go on, one atomic action at a time. A walk in progress is a walk again: of a
call the rest of its work is left, and of a fork the branches that have not ended. What waits may go
on at any time and may be cancelled at any time, limits may be over at any time, and the branches of
a fork take turns in any order.

Walks and courses in order (`inOrder`) are among those that single steps can take.

`Keeps I` says that every action that may still come relates the state before it to the state after
it by `I`, whatever that state is by then. It is kept by every step.
-/

namespace DurableWorkflow

/-!
## Walks in order

The walk of a run that nobody cancels, with the branches of a fork one after the other, each to its
end. Waits pass. Work that would have to wait gets no answer, so limits on calls never matter; a
course whose walk is bounded as a whole gets none either. Every call is noted with the state it
was made on.
-/

/-- The call of a step: the work, and the state it was done on. -/
structure Called (σ : Type) where
  work : Work σ StepResult
  on : σ

variable {σ ρ α β : Type}

mutual

/-- The report of a walk, with the state and the calls up to its end. -/
def Walk.inOrder : Walk σ ρ → σ × List (Called σ) → Option (ρ × σ × List (Called σ))
  | .done r, s => some (r, s)
  | .act f rest, s => (rest s.1).inOrder (f s.1, s.2)
  | .pause _ rest, s => (rest false).inOrder s
  | .call _ work rest, s =>
    match work.runNow s.1 with
    | some (e, t) => (rest (.ofWork e)).inOrder (t, s.2 ++ [⟨work, s.1⟩])
    | none => none
  | .fork branches rest, s =>
    match inOrderAll branches s with
    | some (reports, s) => (rest reports).inOrder s
    | none => none

/-- The reports of branches, one after the other. -/
def inOrderAll : List (Walk σ ρ) → σ × List (Called σ) → Option (List ρ × σ × List (Called σ))
  | [], s => some ([], s)
  | w :: ws, s =>
    match w.inOrder s with
    | some (r, s) => (inOrderAll ws s).map fun (rs, s) => (r :: rs, s)
    | none => none

end

/-- How a course ends that nobody cancels, with its walks in order. -/
def Course.inOrder {ω τ : Type} : Course ω τ β α → ω × List (Called (τ × ω)) →
    Option (Work.End α × ω × List (Called (τ × ω)))
  | .done a, s => some (.done a, s)
  | .crash m, s => some (.crash m, s)
  | .act f rest, s => (rest s.1).inOrder (f s.1, s.2)
  | .wait _ rest, s => rest.inOrder s
  | .walk _ none own path rest, s =>
    match path.inOrder ((own, s.1), s.2) with
    | some (r, (own, w), calls) => (rest own (some r)).inOrder (w, calls)
    | none => none
  | .walk _ (some _) _ _ _, _ => none
  | .perform _ own work rest, s =>
    match work.runNow (own, s.1) with
    | some (e, own, w) => (rest own e).inOrder (w, s.2)
    | none => none

theorem Course.inOrder_bind {ω τ γ : Type} (c : Course ω τ β α) (k : α → Course ω τ β γ)
    (s : ω × List (Called (τ × ω))) :
    (c.bind k).inOrder s = match c.inOrder s with
      | some (.done a, s) => (k a).inOrder s
      | some (.crash m, s) => some (.crash m, s)
      | none => none := by
  induction c generalizing s with
  | done | crash => rfl
  | act f rest ih => exact ih s.1 _
  | wait d rest ih => exact ih s
  | walk cancelled limit own path rest ih =>
    cases limit with
    | some d => rfl
    | none =>
      simp only [Course.bind, Course.inOrder]
      cases path.inOrder ((own, s.1), s.2) with
      | none => rfl
      | some r => exact ih _ _ _
  | perform cancelled own work rest ih =>
    simp only [Course.bind, Course.inOrder]
    cases work.runNow (own, s.1) with
    | none => rfl
    | some r => exact ih _ _ _

/-- The piece hands on `a` and leaves the state at `t`. -/
def Piece.Gives (p : Piece σ ρ α) (s : σ × List (Called σ)) (a : α) (t : σ × List (Called σ)) :
    Prop :=
  ∀ k : α → Walk σ ρ, (p k).inOrder s = (k a).inOrder t

namespace Piece.Gives

variable {s t u : σ × List (Called σ)} {a : α} {b : β}

theorem pure : (Pure.pure a : Piece σ ρ α).Gives s a s := fun _ => rfl

theorem bind {p : Piece σ ρ α} {f : α → Piece σ ρ β} (hp : p.Gives s a t) (hf : (f a).Gives t b u) :
    (p >>= f).Gives s b u := fun k => by
  rw [Piece.bind_apply, hp, hf]

theorem read (f : σ → α) : (Piece.read f : Piece σ ρ α).Gives s (f s.1) s := fun k => by
  simp only [Piece.read, Walk.inOrder, id]

theorem modify (f : σ → σ) :
    (Piece.modify f : Piece σ ρ Unit).Gives s () (f s.1, s.2) := fun k => by
  simp only [Piece.modify, Walk.inOrder]

theorem update (f : σ → α × σ) :
    (Piece.update f : Piece σ ρ α).Gives s (f s.1).1 ((f s.1).2, s.2) := fun k => by
  simp only [Piece.update, Walk.inOrder]

theorem pause (d : Nanos) : (Piece.pause d : Piece σ ρ Bool).Gives s false s := fun k => by
  simp only [Piece.pause, Walk.inOrder]

theorem call {work : Work σ StepResult} {e : Work.End StepResult} {x : σ} (limit : Option Nanos)
    (h : work.runNow s.1 = some (e, x)) :
    (Piece.call limit work : Piece σ ρ CallEnd).Gives s (.ofWork e) (x, s.2 ++ [⟨work, s.1⟩]) :=
  fun k => by simp only [Piece.call, Walk.inOrder, h]

theorem fork {branches : List (Walk σ ρ)} {reports : List ρ}
    (h : inOrderAll branches s = some (reports, t)) : (Piece.fork branches).Gives s reports t :=
  fun k => by simp only [Piece.fork, Walk.inOrder, h]

end Piece.Gives

/-! ## One action at a time -/

variable {τ ω : Type}

/-- One step of work. -/
inductive Work.Step : Work σ α × σ → Work σ α × σ → Prop
  | act (f : σ → σ) (rest : σ → Work σ α) (s : σ) : Step (.act f rest, s) (rest s, f s)
  | sleep (d : Nanos) (rest : Work σ α) (s : σ) : Step (.sleep d rest, s) (rest, s)
  | awaitCancel (rest : Work σ α) (s : σ) : Step (.awaitCancel rest, s) (rest, s)

/-- One step of a walk, or of a branch of it. -/
inductive Walk.Step : Walk σ ρ × σ → Walk σ ρ × σ → Prop
  | act (f : σ → σ) (rest : σ → Walk σ ρ) (s : σ) : Step (.act f rest, s) (rest s, f s)
  | pause (d : Nanos) (rest : Bool → Walk σ ρ) (cancelled : Bool) (s : σ) :
    Step (.pause d rest, s) (rest cancelled, s)
  | work {limit : Option Nanos} {work work' : Work σ StepResult} {rest : CallEnd → Walk σ ρ}
      {s s' : σ} (h : Work.Step (work, s) (work', s')) :
    Step (.call limit work rest, s) (.call limit work' rest, s')
  | done (limit : Option Nanos) (r : StepResult) (rest : CallEnd → Walk σ ρ) (s : σ) :
    Step (.call limit (.done r) rest, s) (rest (.finished r), s)
  | crash (limit : Option Nanos) (m : String) (rest : CallEnd → Walk σ ρ) (s : σ) :
    Step (.call limit (.crash m) rest, s) (rest (.crashed m), s)
  | late (d : Nanos) (work : Work σ StepResult) (rest : CallEnd → Walk σ ρ) (s : σ) :
    Step (.call (some d) work rest, s) (rest .timedOut, s)
  | cancel (limit : Option Nanos) (work : Work σ StepResult) (rest : CallEnd → Walk σ ρ) (s : σ) :
    Step (.call limit work rest, s) (rest .cancelled, s)
  | branch (before after : List (Walk σ ρ)) {w w' : Walk σ ρ} {rest : List ρ → Walk σ ρ} {s s' : σ}
      (h : Step (w, s) (w', s')) :
    Step (.fork (before ++ w :: after) rest, s) (.fork (before ++ w' :: after) rest, s')
  | report (before after : List (Walk σ ρ)) (r : ρ) (rest : List ρ → Walk σ ρ) (s : σ) :
    Step (.fork (before ++ .done r :: after) rest, s)
      (.fork (before ++ after) fun rs => rest (r :: rs), s)
  | join (rest : List ρ → Walk σ ρ) (s : σ) : Step (.fork [] rest, s) (rest [], s)

/-- One step of a course. -/
inductive Course.Step : Course ω τ β α × ω → Course ω τ β α × ω → Prop
  | act (f : ω → ω) (rest : ω → Course ω τ β α) (w : ω) : Step (.act f rest, w) (rest w, f w)
  | wait (d : Nanos) (rest : Course ω τ β α) (w : ω) : Step (.wait d rest, w) (rest, w)
  | walk {cancelled : ω → Bool} {limit : Option Nanos} {own own' : τ} {path path' : Walk (τ × ω) β}
      {rest : τ → Option β → Course ω τ β α} {w w' : ω}
      (h : Walk.Step (path, own, w) (path', own', w')) :
    Step (.walk cancelled limit own path rest, w) (.walk cancelled limit own' path' rest, w')
  | arrive (cancelled : ω → Bool) (limit : Option Nanos) (own : τ) (r : β)
      (rest : τ → Option β → Course ω τ β α) (w : ω) :
    Step (.walk cancelled limit own (.done r) rest, w) (rest own (some r), w)
  | late (cancelled : ω → Bool) (d : Nanos) (own : τ) (path : Walk (τ × ω) β)
      (rest : τ → Option β → Course ω τ β α) (w : ω) :
    Step (.walk cancelled (some d) own path rest, w) (rest own none, w)
  | work {cancelled : ω → Bool} {own own' : τ} {work work' : Work (τ × ω) StepResult}
      {rest : τ → Work.End StepResult → Course ω τ β α} {w w' : ω}
      (h : Work.Step (work, own, w) (work', own', w')) :
    Step (.perform cancelled own work rest, w) (.perform cancelled own' work' rest, w')
  | done (cancelled : ω → Bool) (own : τ) (r : StepResult)
      (rest : τ → Work.End StepResult → Course ω τ β α) (w : ω) :
    Step (.perform cancelled own (.done r) rest, w) (rest own (.done r), w)
  | crash (cancelled : ω → Bool) (own : τ) (m : String)
      (rest : τ → Work.End StepResult → Course ω τ β α) (w : ω) :
    Step (.perform cancelled own (.crash m) rest, w) (rest own (.crash m), w)

/-- A step of a course that leaves no walk as late which has come to its report: whoever waits for
the walk looks at it before looking at the clock. -/
def Course.Timely (x y : Course ω τ β α × ω) : Prop :=
  Course.Step x y ∧ ∀ cancelled limit own r rest, x.1 = .walk cancelled limit own (.done r) rest →
    y.1 = rest own (some r)

/-! ### Walks in order, step by step -/

/-- Any number of steps. -/
abbrev Work.Steps : Work σ α × σ → Work σ α × σ → Prop := Relation.ReflTransGen Work.Step

abbrev Walk.Steps : Walk σ ρ × σ → Walk σ ρ × σ → Prop := Relation.ReflTransGen Walk.Step

abbrev Course.Steps : Course ω τ β α × ω → Course ω τ β α × ω → Prop :=
  Relation.ReflTransGen Course.Step

/-- Work that has ended. -/
def Work.End.work : Work.End α → Work σ α
  | .done a => .done a
  | .crash m => .crash m

theorem Work.steps_of_runNow (w : Work σ α) {s t : σ} {e : Work.End α}
    (h : w.runNow s = some (e, t)) : Work.Steps (w, s) (e.work, t) := by
  induction w generalizing s with
  | done a | crash m =>
    cases h
    exact .refl
  | act f rest ih => exact .head (.act f rest s) (ih _ h)
  | sleep | awaitCancel => simp [Work.runNow] at h

theorem Walk.Steps.call {limit : Option Nanos} {rest : CallEnd → Walk σ ρ}
    {x y : Work σ StepResult × σ} (h : Work.Steps x y) :
    Walk.Steps (.call limit x.1 rest, x.2) (.call limit y.1 rest, y.2) :=
  h.lift (fun x => (Walk.call limit x.1 rest, x.2)) fun _ _ h => .work h

theorem Walk.Steps.branch {after : List (Walk σ ρ)} {rest : List ρ → Walk σ ρ}
    {x y : Walk σ ρ × σ} (h : Walk.Steps x y) :
    Walk.Steps (.fork (x.1 :: after) rest, x.2) (.fork (y.1 :: after) rest, y.2) :=
  h.lift (fun x => (Walk.fork (x.1 :: after) rest, x.2)) fun _ _ h => .branch [] after h

/-- Only where a walk has come to its report is there anything to be shown. -/
theorem Course.Step.timely {x y : Course ω τ β α × ω} (h : Course.Step x y)
    (hpath : ∀ cancelled limit own r rest, x.1 ≠ .walk cancelled limit own (.done r) rest) :
    Course.Timely x y :=
  ⟨h, fun _ _ _ _ _ hx => absurd hx (hpath _ _ _ _ _)⟩

theorem Course.Timely.walk {cancelled : ω → Bool} {limit : Option Nanos}
    {rest : τ → Option β → Course ω τ β α} {x y : Walk (τ × ω) β × τ × ω} (h : Walk.Step x y) :
    Course.Timely (.walk cancelled limit x.2.1 x.1 rest, x.2.2)
      (.walk cancelled limit y.2.1 y.1 rest, y.2.2) :=
  (Course.Step.walk h).timely fun _ _ _ _ _ hx => by
    obtain ⟨path, own, w⟩ := x
    cases hx
    cases h

theorem Course.Timely.walks {cancelled : ω → Bool} {limit : Option Nanos}
    {rest : τ → Option β → Course ω τ β α} {x y : Walk (τ × ω) β × τ × ω} (h : Walk.Steps x y) :
    Relation.ReflTransGen Course.Timely (.walk cancelled limit x.2.1 x.1 rest, x.2.2)
      (.walk cancelled limit y.2.1 y.1 rest, y.2.2) :=
  h.lift (fun x : Walk (τ × ω) β × τ × ω => (Course.walk cancelled limit x.2.1 x.1 rest, x.2.2))
    fun _ _ => .walk

theorem Course.Timely.works {cancelled : ω → Bool} {rest : τ → Work.End StepResult → Course ω τ β α}
    {x y : Work (τ × ω) StepResult × τ × ω} (h : Work.Steps x y) :
    Relation.ReflTransGen Course.Timely (.perform cancelled x.2.1 x.1 rest, x.2.2)
      (.perform cancelled y.2.1 y.1 rest, y.2.2) :=
  h.lift (fun x : Work (τ × ω) StepResult × τ × ω =>
    (Course.perform cancelled x.2.1 x.1 rest, x.2.2)) fun _ _ h =>
      (Course.Step.work h).timely (by simp)

theorem Course.Timely.arrive (cancelled : ω → Bool) (limit : Option Nanos) (own : τ) (r : β)
    (rest : τ → Option β → Course ω τ β α) (w : ω) :
    Course.Timely (.walk cancelled limit own (.done r) rest, w) (rest own (some r), w) :=
  ⟨.arrive cancelled limit own r rest w, fun _ _ _ _ _ hx => by cases hx; rfl⟩

mutual

theorem Walk.steps_of_inOrder : ∀ (w : Walk σ ρ) {s t : σ × List (Called σ)} {r : ρ},
    w.inOrder s = some (r, t) → Walk.Steps (w, s.1) (.done r, t.1)
  | .done _, s, t, r, h => by
    cases h
    exact .refl
  | .act f rest, s, t, r, h => .head (.act f rest s.1) (steps_of_inOrder (rest s.1) h)
  | .pause d rest, s, t, r, h => .head (.pause d rest false s.1) (steps_of_inOrder (rest false) h)
  | .call limit work rest, s, t, r, h => by
    rw [Walk.inOrder] at h
    cases hrun : work.runNow s.1 with
    | none => simp [hrun] at h
    | some x =>
      obtain ⟨e, x⟩ := x
      rw [hrun] at h
      refine (Walk.Steps.call (work.steps_of_runNow hrun)).trans ?_
      cases e with
      | done a => exact .head (.done limit a rest x) (steps_of_inOrder (rest _) h)
      | crash m => exact .head (.crash limit m rest x) (steps_of_inOrder (rest _) h)
  | .fork branches rest, s, t, r, h => by
    rw [Walk.inOrder] at h
    cases hall : inOrderAll branches s with
    | none => simp [hall] at h
    | some x =>
      obtain ⟨reports, x⟩ := x
      rw [hall] at h
      exact (forkSteps_of_inOrderAll branches rest hall).trans (steps_of_inOrder (rest reports) h)

theorem Walk.forkSteps_of_inOrderAll : ∀ (branches : List (Walk σ ρ)) (rest : List ρ → Walk σ ρ)
    {s t : σ × List (Called σ)} {reports : List ρ}, inOrderAll branches s = some (reports, t) →
    Walk.Steps (.fork branches rest, s.1) (rest reports, t.1)
  | [], rest, s, t, reports, h => by
    cases h
    exact .single (.join rest s.1)
  | w :: ws, rest, s, t, reports, h => by
    rw [inOrderAll] at h
    cases hw : w.inOrder s with
    | none => simp [hw] at h
    | some x =>
      obtain ⟨r, x⟩ := x
      simp only [hw, Option.map_eq_some_iff] at h
      obtain ⟨⟨rs, y⟩, hall, heq⟩ := h
      cases heq
      refine (Walk.Steps.branch (steps_of_inOrder w hw)).trans ?_
      exact .head (.report [] ws r rest x.1)
        (forkSteps_of_inOrderAll ws (fun rs => rest (r :: rs)) hall)

end

/-- A course that ends in order can end like this by single steps. -/
theorem Course.timely_of_inOrder (c : Course ω τ β α) {s t : ω × List (Called (τ × ω))} {a : α}
    (h : c.inOrder s = some (.done a, t)) :
    Relation.ReflTransGen Course.Timely (c, s.1) (.done a, t.1) := by
  induction c generalizing s with
  | done =>
    cases h
    exact .refl
  | crash => simp [Course.inOrder] at h
  | act f rest ih => exact .head ((Course.Step.act f rest s.1).timely (by simp)) (ih s.1 h)
  | wait d rest ih => exact .head ((Course.Step.wait d rest s.1).timely (by simp)) (ih h)
  | walk cancelled limit own path rest ih =>
    cases limit with
    | some d => simp [Course.inOrder] at h
    | none =>
      rw [Course.inOrder] at h
      cases hpath : path.inOrder ((own, s.1), s.2) with
      | none => simp [hpath] at h
      | some x =>
        obtain ⟨r, ⟨own', w⟩, calls⟩ := x
        rw [hpath] at h
        refine (Course.Timely.walks (path.steps_of_inOrder hpath)).trans ?_
        exact .head (.arrive cancelled none own' r rest w) (ih own' (some r) h)
  | perform cancelled own work rest ih =>
    rw [Course.inOrder] at h
    cases hrun : work.runNow (own, s.1) with
    | none => simp [hrun] at h
    | some x =>
      obtain ⟨e, own', w⟩ := x
      rw [hrun] at h
      refine (Course.Timely.works (work.steps_of_runNow hrun)).trans ?_
      cases e with
      | done r =>
        exact .head ((Course.Step.done cancelled own' r rest w).timely (by simp)) (ih own' _ h)
      | crash m =>
        exact .head ((Course.Step.crash cancelled own' m rest w).timely (by simp)) (ih own' _ h)

theorem Course.steps_of_inOrder (c : Course ω τ β α) {s t : ω × List (Called (τ × ω))} {a : α}
    (h : c.inOrder s = some (.done a, t)) : Course.Steps (c, s.1) (.done a, t.1) :=
  (c.timely_of_inOrder h).lift id fun _ _ => And.left

/-! ### What every action does -/

/-- Every action of the work is an `I`. -/
def Work.Keeps (I : σ → σ → Prop) : Work σ α → Prop
  | .done _ | .crash _ => True
  | .act f rest => ∀ s, I s (f s) ∧ (rest s).Keeps I
  | .sleep _ rest | .awaitCancel rest => rest.Keeps I

mutual

/-- Every action of the walk is an `I`. -/
def Walk.Keeps (I : σ → σ → Prop) : Walk σ ρ → Prop
  | .done _ => True
  | .act f rest => ∀ s, I s (f s) ∧ (rest s).Keeps I
  | .pause _ rest => ∀ cancelled, (rest cancelled).Keeps I
  | .call _ work rest => work.Keeps I ∧ ∀ e, (rest e).Keeps I
  | .fork branches rest => allKeep I branches ∧ ∀ rs, (rest rs).Keeps I

def allKeep (I : σ → σ → Prop) : List (Walk σ ρ) → Prop
  | [] => True
  | w :: ws => w.Keeps I ∧ allKeep I ws

end

variable {I : σ → σ → Prop}

theorem allKeep_iff (ws : List (Walk σ ρ)) : allKeep I ws ↔ ∀ w ∈ ws, w.Keeps I := by
  induction ws with
  | nil => simp [allKeep]
  | cons w ws ih => rw [allKeep, ih, List.forall_mem_cons]

theorem allKeep_around (before : List (Walk σ ρ)) {w : Walk σ ρ} {after : List (Walk σ ρ)} :
    allKeep I (before ++ w :: after) ↔ w.Keeps I ∧ allKeep I (before ++ after) := by
  simp only [allKeep_iff, List.forall_mem_append, List.forall_mem_cons]
  exact and_left_comm

theorem Work.keeps_of_forall (work : Work σ α) (h : ∀ s t, I s t) : work.Keeps I := by
  induction work with
  | done | crash => trivial
  | act f rest ih => exact fun s => ⟨h s (f s), ih s⟩
  | sleep d rest ih => exact ih
  | awaitCancel rest ih => exact ih

theorem Work.Keeps.step {x y : Work σ α × σ} (h : Work.Step x y) (hx : x.1.Keeps I) :
    (y.2 = x.2 ∨ I x.2 y.2) ∧ y.1.Keeps I := by
  cases h with
  | act f rest s => exact ⟨.inr (hx s).1, (hx s).2⟩
  | sleep d rest s => exact ⟨.inl rfl, hx⟩
  | awaitCancel rest s => exact ⟨.inl rfl, hx⟩

theorem Walk.Keeps.step {x y : Walk σ ρ × σ} (h : Walk.Step x y) (hx : x.1.Keeps I) :
    (y.2 = x.2 ∨ I x.2 y.2) ∧ y.1.Keeps I := by
  induction h with
  | act f rest s => exact ⟨.inr (hx s).1, (hx s).2⟩
  | pause d rest cancelled s => exact ⟨.inl rfl, hx cancelled⟩
  | work h =>
    obtain ⟨hwork, hrest⟩ := hx
    obtain ⟨hs, hwork'⟩ := Work.Keeps.step h hwork
    exact ⟨hs, hwork', hrest⟩
  | done limit r rest s => exact ⟨.inl rfl, hx.2 _⟩
  | crash limit m rest s => exact ⟨.inl rfl, hx.2 _⟩
  | late d work rest s => exact ⟨.inl rfl, hx.2 _⟩
  | cancel limit work rest s => exact ⟨.inl rfl, hx.2 _⟩
  | branch before after h ih =>
    obtain ⟨hall, hrest⟩ := hx
    obtain ⟨hw, hothers⟩ := (allKeep_around before).1 hall
    obtain ⟨hs, hw'⟩ := ih hw
    exact ⟨hs, (allKeep_around before).2 ⟨hw', hothers⟩, hrest⟩
  | report before after r rest s =>
    obtain ⟨hall, hrest⟩ := hx
    exact ⟨.inl rfl, ((allKeep_around before).1 hall).2, fun rs => hrest (r :: rs)⟩
  | join rest s => exact ⟨.inl rfl, hx.2 []⟩

/-- The piece does only what is an `I`, whatever it hands on, and ends walks only with reports of
which `P` holds. -/
inductive Piece.Keeps (P : ρ → Prop) (I : σ → σ → Prop) : {α : Type} → Piece σ ρ α → Prop
  | pure {α : Type} (a : α) : Keeps P I (Pure.pure a : Piece σ ρ α)
  | bind {α β : Type} {p : Piece σ ρ α} {f : α → Piece σ ρ β} (hp : Keeps P I p)
    (hf : ∀ a, Keeps P I (f a)) : Keeps P I (p >>= f)
  | halt {α : Type} {r : ρ} (h : P r) : Keeps P I (Piece.halt r : Piece σ ρ α)
  | update {α : Type} {f : σ → α × σ} (h : ∀ s, I s (f s).2) :
    Keeps P I (Piece.update f : Piece σ ρ α)
  | pause (d : Nanos) : Keeps P I (Piece.pause d)
  | call (limit : Option Nanos) {work : Work σ StepResult} (h : work.Keeps I) :
    Keeps P I (Piece.call limit work)
  | fork {branches : List (Walk σ ρ)} (h : ∀ w ∈ branches, w.Keeps I) :
    Keeps P I (Piece.fork branches)

namespace Piece.Keeps

variable {P : ρ → Prop}

theorem modify {f : σ → σ} (h : ∀ s, I s (f s)) : (Piece.modify f : Piece σ ρ Unit).Keeps P I :=
  update (f := fun s => ((), f s)) h

theorem read (f : σ → α) (h : ∀ s, I s s) : (Piece.read f : Piece σ ρ α).Keeps P I :=
  update (f := fun s => (f s, s)) h

/-- A walk that begins with the piece. -/
theorem walk {p : Piece σ ρ α} (h : p.Keeps P I) {k : α → Walk σ ρ} (hk : ∀ a, (k a).Keeps I) :
    (p k).Keeps I := by
  induction h with
  | pure a => exact hk a
  | bind _ _ ihp ihf => exact ihp fun a => ihf a hk
  | halt => trivial
  | update h => exact fun s => ⟨h s, hk _⟩
  | pause d => exact fun cancelled => hk cancelled
  | call limit h => exact ⟨h, hk⟩
  | fork h => exact ⟨(allKeep_iff _).2 h, hk⟩

end Piece.Keeps

end DurableWorkflow

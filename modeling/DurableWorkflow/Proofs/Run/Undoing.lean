import DurableWorkflow.Proofs.Course.Conduct
import DurableWorkflow.Proofs.Run.Keeps
import DurableWorkflow.Proofs.Walk.Schedule

/-!
# What a failed run undoes

The books of a run begin empty, wherever it starts. So the steps that are undone when it fails are
those that it has completed itself, latest first and each of them once (`run_undoes`). What earlier
runs of the same instance have completed, before a wait or a crash, is not undone
(`undone_le_executed`).
-/

namespace DurableWorkflow

variable {C H X ω τ β α : Type}

/-! ### Courses on their own -/

/-- The conduct that allows everything. -/
def Conduct.free (ω : Type) : Conduct ω where
  good _ := True
  others _ _ := True
  own _ _ := True
  licence _ := True
  refl _ := trivial
  trans _ _ := trivial
  own_refl _ := trivial
  licence_others _ _ := trivial
  licence_own _ _ := trivial

/-- The value in which a course ends, whatever happens to the world meanwhile. -/
theorem Course.Obeys.ends {Q : α → Prop} {c : Course ω τ β α} {w v : ω} {a : α}
    (h : c.Obeys (Conduct.free ω) (fun a _ => Q a) w)
    (hmoves : Moves (fun _ _ => True) Course.Step (c, w) (.done a, v)) : Q a := by
  have hall : ∀ y, Moves (fun _ _ => True) Course.Step (c, w) y →
      y.1.Obeys (Conduct.free ω) (fun a _ => Q a) y.2 := by
    intro y hy
    induction hy with
    | refl => exact h
    | tail _ hstep ih =>
      obtain hstep | ⟨hsame, hdrift⟩ := hstep
      · exact (Course.Obeys.step hstep ih trivial).2.2
      · rw [hsame]
        exact ih.stable (fun _ _ _ h _ => h) hdrift
  exact hall _ hmoves

/-! ### The books -/

/-- The books tell that these steps have succeeded. -/
structure Ledger.Tells (l : Ledger C H) (g : Graph C H) (all : List (NodeId × Step C H)) :
    Prop where
  steps : ∀ y ∈ all, y ∈ g.steps
  completed : l.completed = all.filter (·.2.compensates)
  executed : l.metrics.executed = all.length

namespace Ledger.Tells

variable {g : Graph C H} {all : List (NodeId × Step C H)}

theorem begin : ({} : Ledger C H).Tells g [] := ⟨by simp, rfl, rfl⟩

theorem near {b b' : Board C H X} (h : b.ledger.Tells g all) (hnear : b.Near b') :
    b'.ledger.Tells g all :=
  ⟨h.steps, hnear.completed.trans h.completed, hnear.executed.trans h.executed⟩

theorem enter {b : Board C H X} {node : NodeId} {s : Step C H} (h : b.ledger.Tells g all)
    (hs : (node, s) ∈ g.steps) : (b.enter node s).ledger.Tells g (all ++ [(node, s)]) where
  steps y hy := by
    rcases List.mem_append.1 hy with hy | hy
    · exact h.steps y hy
    · rw [List.mem_singleton.1 hy]
      exact hs
  completed := by
    rw [List.filter_append, ← h.completed]
    by_cases hs : s.compensates <;> simp [Board.enter, hs]
  executed := by
    rw [List.length_append, ← h.executed]
    rfl

end Ledger.Tells

namespace Environment

/-- On a run, the books always tell what has succeeded. -/
def Booked (g : Graph C H) (b : Board C H X) (_ : ω) : Prop := ∃ all, b.ledger.Tells g all

theorem within_booked (env : Environment C H X ω) (g : Graph C H) :
    env.Within g ((Conduct.free ω).action (Booked g)) where
  board _ _ _ hnear _ := fun ⟨all, h⟩ => ⟨trivial, trivial, all, h.near hnear⟩
  enter _ _ _ _ hs _ := fun ⟨_, h⟩ => ⟨trivial, trivial, _, h.enter hs⟩
  publish _ _ _ _ _ h := ⟨trivial, trivial, h⟩
  memory _ _ _ _ _ h := ⟨trivial, trivial, h⟩
  note _ _ _ _ := fun ⟨all, h⟩ => ⟨trivial, trivial, all, h.steps, h.completed, h.executed⟩
  save _ _ _ _ _ _ _ h := ⟨trivial, trivial, h⟩

/-! ### Undoing -/

/-- What comes of undoing these steps, one after the other and each of them once. -/
inductive Undone.Of : Undone → List (NodeId × Step C H) → Prop
  | nothing : Of {} []
  | add {u : Undone} {steps : List (NodeId × Step C H)} (h : Of u steps) (node : NodeId)
      (s : Step C H) (e : Work.End StepResult) : Of (u.add s.name e) (steps ++ [(node, s)])

/-- Each step is either undone or has failed to be. -/
theorem Undone.Of.length {u : Undone} {steps : List (NodeId × Step C H)} (h : u.Of steps) :
    u.compensated.length + u.failures.length = steps.length := by
  induction h with
  | nothing => rfl
  | add h node s e ih =>
    rw [List.length_append, ← ih]
    cases e with
    | crash m => simp [Undone.add, Nat.add_assoc]
    | done r =>
      cases herror : r.error? with
      | some error => simp [Undone.add, herror, Nat.add_assoc]
      | none => simp [Undone.add, herror, Nat.add_right_comm]

/-- The result tells what came of undoing the steps that have succeeded, latest first, if the run
has failed and is to be undone. -/
def Undoes (env : Environment C H X ω) (g : Graph C H) (result : RunResult C) : Prop :=
  ∃ all : List (NodeId × Step C H), (∀ y ∈ all, y ∈ g.steps) ∧
    result.metrics.executed = all.length ∧
    Undone.Of ⟨result.compensated, result.compensationFailures⟩
      (if result.outcome.isFailed && env.options.compensation then
        (all.filter (·.2.compensates)).reverse else [])

variable {env : Environment C H X ω} {d : Definition C H} {w : ω}

theorem undo_obeys {before : List (NodeId × Step C H)} (steps : List (NodeId × Step C H))
    {board : Board C H X} {u : Undone} (hsteps : ∀ y ∈ steps, y.2.compensates = true)
    (hu : u.Of before) : (env.undo board u steps).Obeys (Conduct.free ω)
      (fun r _ => r.1.ledger = board.ledger ∧ r.2.Of (before ++ steps)) w := by
  induction steps generalizing board u before w with
  | nil => exact ⟨rfl, by rwa [List.append_nil]⟩
  | cons step steps ih =>
    obtain ⟨node, s⟩ := step
    obtain ⟨hs, hsteps⟩ := List.forall_mem_cons.1 hsteps
    rw [undo]
    split
    · next hnone => simp [Step.compensates, hnone] at hs
    · refine ⟨trivial, fun own _ => own.ledger = board.ledger, rfl, fun _ _ _ h _ => h,
        onBoard_keeps (fun _ _ _ _ _ h => ⟨trivial, trivial, h⟩) _, fun own e v _ hown => ?_⟩
      refine (ih hsteps (hu.add node s e)).mono fun r _ ⟨hledger, hr⟩ => ?_
      exact ⟨hledger.trans hown, by simpa using hr⟩

theorem conclude_obeys (begin : Nat) {board : Board C H X} (outcome : RunOutcome)
    (h : Booked d.graph board w) : (env.conclude d begin board outcome).Obeys (Conduct.free ω)
      (fun r _ => env.Undoes d.graph r.2) w := by
  obtain ⟨all, h⟩ := h
  have hcompensate : ∀ y ∈ (if outcome.isFailed && env.options.compensation then
      board.ledger.completed.reverse else []), y.2.compensates = true := by
    intro y hy
    split at hy
    · rw [h.completed, List.mem_reverse] at hy
      exact (List.mem_filter.1 hy).2
    · simp at hy
  refine (undo_obeys _ hcompensate .nothing).bind fun r v ⟨hledger, hr⟩ => ?_
  have hundoes (instant : Nat) : env.Undoes d.graph {
      outcome, context := r.1.context, compensated := r.2.compensated
      compensationFailures := r.2.failures
      metrics := { r.1.ledger.metrics with durationMillis := instant - begin }
      trace := r.1.ledger.trace } := by
    refine ⟨all, h.steps, ?_, ?_⟩
    · rw [← h.executed, ← hledger]
    · rw [List.nil_append, h.completed] at hr
      exact hr
  intro v _ _
  refine ⟨trivial, trivial, ?_⟩
  simp only [Course.pure_bind]
  split
  · exact fun v _ _ => ⟨trivial, trivial, hundoes _⟩
  · exact hundoes _

theorem run_obeys_free (start : StartPoint) (context : C) (extra : X) :
    (env.run d start context extra).Obeys (Conduct.free ω)
      (fun a _ => ∀ result ∈ a.2, env.Undoes d.graph result) w := by
  refine fun _ _ _ => ⟨trivial, trivial, fun _ _ _ => ⟨trivial, trivial, ?_⟩⟩
  refine ⟨trivial, Booked d.graph, ⟨[], .begin⟩, fun _ _ _ h _ => h,
    traverse_keeps (within_booked env d.graph) start, fun board report v _ h => ?_⟩
  simp only
  split
  · trivial
  · exact fun result hresult => by simp at hresult
  · refine (conclude_obeys _ _ h).bind fun r v hr => ?_
    intro result hresult
    cases hresult
    exact hr

variable {start : StartPoint} {context : C} {extra extra' : X} {v : ω} {result : RunResult C}

/-- A run undoes what it has completed itself, whatever happens to the world meanwhile. -/
theorem run_undoes (h : Moves (fun _ _ => True) Course.Step (env.run d start context extra, w)
    (.done (extra', some result), v)) : env.Undoes d.graph result :=
  (run_obeys_free start context extra).ends h result rfl

/-- A run undoes no more steps than it has completed. -/
theorem undone_le_executed (h : Moves (fun _ _ => True) Course.Step
    (env.run d start context extra, w) (.done (extra', some result), v)) :
    result.compensated.length + result.compensationFailures.length ≤ result.metrics.executed := by
  obtain ⟨all, -, hexecuted, hundone⟩ := run_undoes h
  have hlength := hundone.length
  have hfilter := List.length_filter_le (·.2.compensates) all
  split at hlength
  · rw [List.length_reverse] at hlength
    simp only at hlength
    omega
  · simp only [List.length_nil] at hlength
    omega

end Environment

end DurableWorkflow

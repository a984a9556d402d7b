import DurableWorkflow.Proofs.Course.Moves
import DurableWorkflow.Proofs.Run.Keeps
import DurableWorkflow.Proofs.Run.Undoing
import DurableWorkflow.Proofs.Walk.Goes

/-!
# From the beginning of a run to its result

A run that has come to a result has walked its graph from an empty board (`run_passes`), and its
result tells what the books said when the walk ended. What it does before and after is to announce
that it begins and how it has ended, and to undo the steps that were completed by then.
-/

namespace DurableWorkflow

variable {C H X ω α : Type}

/-- The run was ended because it took longer than its definition allows. -/
def RunResult.IsLate (d : Definition C H) (result : RunResult C) : Prop :=
  ∃ limit, d.limit = some limit ∧ result.outcome = .failed (Environment.lateFailure d limit)

namespace Environment

/-- What the others do, and what is done to the memory of the steps, is a `K`. -/
structure Aside (env : Environment C H X ω) (drift K : ω → ω → Prop) : Prop
    extends Spans drift K where
  memory : ∀ h w, K w (env.setMemory h w)

/-- What the others do, and what a run does outside its walk, is a `K`. -/
structure Outside (env : Environment C H X ω) (drift K : ω → ω → Prop) : Prop
    extends env.Aside drift K where
  started : ∀ id w, K w (env.announce (.runStarted id) w)
  completed : ∀ id millis executed w, K w (env.announce (.runCompleted id millis executed) w)
  failed : ∀ id error w, K w (env.announce (.runFailed id error) w)

/-- What is to be undone after a run with these completed steps that has ended like this. -/
def dueSteps (env : Environment C H X ω) (o : RunOutcome) (completed : List (NodeId × Step C H)) :
    List (NodeId × Step C H) :=
  (if o.isFailed && env.options.compensation then completed.reverse else []).filter (·.2.compensates)

/-- How a run has come to its result: in the world `u` it has begun to walk, and it was on this path
with this board in the world `t` when the walk ended or was late. -/
structure Passes (env : Environment C H X ω) (drift : ω → ω → Prop) (d : Definition C H)
    (start : StartPoint) (context : C) (extra : X) (result : RunResult C) (u t : ω)
    (path : Walk (Board C H X × ω) Report) (board : Board C H X) (report : Option Report) :
    Prop where
  walked : Moves (Beside drift) Walk.Step (env.traverse d start, { context, extra }, u)
    (path, board, t)
  ended : ∀ r, report = some r → path = .done r
  late : report = none → d.limit.isSome = true
  outcome : outcome d report = some result.outcome
  trace : result.trace = board.ledger.trace
  metrics : ∃ millis, result.metrics = { board.ledger.metrics with durationMillis := millis }
  undone : Undone.Of ⟨result.compensated, result.compensationFailures⟩
    (env.dueSteps result.outcome board.ledger.completed)

variable {env : Environment C H X ω} {drift K : ω → ω → Prop} {d : Definition C H} {w v : ω} {a : α}

theorem Outside.ends (h : env.Outside drift K) (metrics : Metrics) (o : RunOutcome) (w : ω) :
    K w ((ending d metrics o).elim w (env.announce · w)) := by
  cases o with
  | completed => exact h.completed _ _ _ w
  | failed f => exact h.failed _ _ w
  | suspended s => exact h.refl w

theorem outside_true (env : Environment C H X ω) (drift : ω → ω → Prop) :
    env.Outside drift fun _ _ => True :=
  ⟨⟨⟨fun _ => trivial, fun _ _ => trivial, fun _ => trivial⟩, fun _ _ => trivial⟩,
    fun _ _ => trivial, fun _ _ _ _ => trivial, fun _ _ _ => trivial⟩

/-- Undoing steps does not change the books. -/
theorem undo_comes (h : env.Aside drift K) {k : Board C H X × Undone → Op C H X ω α}
    (steps : List (NodeId × Step C H)) {board : Board C H X} {u : Undone}
    {before : List (NodeId × Step C H)} (hu : u.Of before)
    (hcomes : ((env.undo board u steps).bind k).Comes drift w a v) :
    ∃ board' u' t, board'.ledger = board.ledger ∧
      Undone.Of u' (before ++ steps.filter (·.2.compensates)) ∧ K w t ∧
      (k (board', u')).Comes drift t a v := by
  induction steps generalizing board u w before with
  | nil => exact ⟨board, u, w, rfl, by simpa using hu, h.refl w, hcomes⟩
  | cons step steps ih =>
    obtain ⟨node, s⟩ := step
    rw [undo] at hcomes
    cases hcompensate : s.compensate with
    | none =>
      rw [hcompensate] at hcomes
      have hskip : s.compensates = false := by simp [Step.compensates, hcompensate]
      rw [List.filter_cons_of_neg (by simp [hskip])]
      exact ih hu hcomes
    | some work =>
      rw [hcompensate] at hcomes
      obtain ⟨e, own, t, hwork, hrest⟩ := hcomes.perform
      have hspans : Spans (Beside drift) fun s t : Board C H X × ω =>
          t.1.ledger = s.1.ledger ∧ K s.2 t.2 :=
        ⟨fun s => ⟨rfl, h.refl s.2⟩, fun hst htu => ⟨htu.1.trans hst.1, h.trans hst.2 htu.2⟩,
          fun hst => ⟨congrArg Board.ledger hst.1, h.drift hst.2⟩⟩
      obtain ⟨⟨hledger, hwt⟩, -⟩ := Work.Keeps.moves hspans hwork
        (onBoard_keeps (fun _ _ h' w => ⟨rfl, h.memory h' w⟩) work)
      obtain ⟨board', u', t', hledger', hundone, htt', hk⟩ := ih (hu.add node s e) hrest
      have hdue : s.compensates = true := by simp [Step.compensates, hcompensate]
      refine ⟨board', u', t', hledger'.trans hledger, ?_, h.trans hwt htt', hk⟩
      simpa [hdue] using hundone

/-- What is undone may take its time; then the end is announced. -/
theorem conclude_comes (h : env.Aside drift K) {begin : Nat} {board : Board C H X}
    {o : RunOutcome} {extra : X} {result? : Option (RunResult C)}
    (hcomes : ((env.conclude d begin board o).bind fun y => .done (y.1.extra, some y.2)).Comes
      drift w (extra, result?) v) :
    ∃ result, result? = some result ∧ result.outcome = o ∧ result.trace = board.ledger.trace ∧
      (∃ millis, result.metrics = { board.ledger.metrics with durationMillis := millis }) ∧
      Undone.Of ⟨result.compensated, result.compensationFailures⟩
        (env.dueSteps o board.ledger.completed) ∧
      ∃ t, K w t ∧ K ((ending d result.metrics o).elim t (env.announce · t)) v := by
  have hundo : (Course.bind (Course.bind (env.undo board {} _) _) _).Comes drift w _ v := hcomes
  rw [Course.bind_assoc] at hundo
  obtain ⟨board', u, t, hledger, hundone, hwt, hrest⟩ := undo_comes h _ .nothing hundo
  obtain ⟨t', hdrifts, hrest⟩ := hrest.act
  have hwt' : K w t' := h.trans hwt (h.drifts hdrifts)
  simp only [id, Course.pure_bind] at hrest
  split at hrest
  · next what hwhat =>
    obtain ⟨t'', hdrifts', hdone⟩ := hrest.act
    obtain ⟨heq, hlast⟩ := hdone.done
    cases heq
    refine ⟨_, rfl, rfl, by rw [hledger], ⟨_, by rw [hledger]⟩, hundone, t'',
      h.trans hwt' (h.drifts hdrifts'), ?_⟩
    simp only [hwhat, Option.elim_some]
    exact h.drifts hlast
  · next hwhat =>
    obtain ⟨heq, hlast⟩ := hrest.done
    cases heq
    refine ⟨_, rfl, rfl, by rw [hledger], ⟨_, by rw [hledger]⟩, hundone, t', hwt', ?_⟩
    simp only [hwhat, Option.elim_none]
    exact h.drifts hlast

variable {start : StartPoint} {context : C} {extra extra' : X} {result : RunResult C}

theorem run_passes (h : env.Outside drift K)
    (hcomes : (env.run d start context extra).Comes drift w (extra', some result) v) :
    ∃ u t path board report, K w u ∧ K t v ∧
      env.Passes drift d start context extra result u t path board report := by
  obtain ⟨u, hwu, hcomes⟩ := hcomes.act
  obtain ⟨u', huu', hcomes⟩ := hcomes.act
  obtain ⟨path, board, t, report, hwalked, hended, hlate, hcomes⟩ := hcomes.walk
  have hbegin : K w (env.announce (.runStarted d.id) u') :=
    h.trans (h.drifts hwu) (h.trans (h.drifts huu') (h.started d.id u'))
  simp only at hcomes
  split at hcomes
  · exact hcomes.not_crash.elim
  · have hnone := hcomes.done.1
    cases hnone
  · next o _ ho =>
    obtain ⟨result, ⟨⟩, rfl, htrace, hmetrics, hundone, s, hts, hsv⟩ :=
      conclude_comes h.toAside hcomes
    have htv : K t v := h.trans hts (h.trans (h.ends _ _ s) hsv)
    exact ⟨_, t, path, board, report, hbegin, htv, hwalked, hended, hlate, ho, htrace, hmetrics,
      hundone⟩

/-- The outcome of a run that was not late is how its walk ended. -/
theorem halt_of_outcome {r : Report} {o : RunOutcome} (h : outcome d (some r) = some o) :
    (o = .completed → r.halt = .drained) ∧ (∀ f, o = .failed f → r.halt = .failed f) ∧
      ∀ s, o = .suspended s → r.halt = .suspended s := by
  unfold outcome at h
  simp only at h
  split at h
  · next hr =>
    cases h
    exact ⟨fun _ => hr, by simp, by simp⟩
  · next f hr =>
    cases h
    refine ⟨by simp, fun f' hf => ?_, by simp⟩
    cases hf
    exact hr
  · next s hr =>
    cases h
    refine ⟨by simp, by simp, fun s' hs => ?_⟩
    cases hs
    exact hr
  · simp at h
  · simp at h

/-- A run that was not late has walked to a report. -/
theorem Passes.report {u t : ω} {path : Walk (Board C H X × ω) Report} {board : Board C H X}
    {report : Option Report}
    (h : env.Passes drift d start context extra result u t path board report)
    (htime : ¬result.IsLate d) :
    ∃ r, path = .done r ∧ Environment.outcome d (some r) = some result.outcome := by
  cases report with
  | none =>
    obtain ⟨limit, hlimit⟩ := Option.isSome_iff_exists.1 (h.late rfl)
    have houtcome := (Option.some.inj h.outcome).symm
    rw [hlimit, Option.getD_some] at houtcome
    exact absurd ⟨limit, hlimit, houtcome⟩ htime
  | some r => exact ⟨r, h.ended r rfl, h.outcome⟩

end Environment

end DurableWorkflow

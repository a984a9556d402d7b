import DurableWorkflow.Proofs.Reading.Basic
import DurableWorkflow.Proofs.Walk.Step
import DurableWorkflow.Run.Engine

/-!
# Steps in a calm environment

Nobody cancels, checkpoints can be saved, and what is announced or saved leaves the memory of the
steps alone. Then the attempts at a step are those that a direct reading makes, on the same states,
and they come to the same outcome. `Scene.Seen` ties what a reading keeps to the board of a run.
-/

namespace DurableWorkflow

variable {C H X ω : Type}

/-- Nothing comes from outside. -/
structure Environment.Calm (env : Environment C H X ω) : Prop where
  cancelled : ∀ w, env.cancelled w = false
  memory_set : ∀ h w, env.memory (env.setMemory h w) = h
  memory_publish : ∀ e w, env.memory (env.publish e w) = env.memory w
  save : ∀ c x w, ∃ x' w', env.save c (x, w) = .ok (x', w') ∧ env.memory w' = env.memory w

/-- Surroundings in which nothing happens. -/
def Environment.still (C H : Type) : Environment C H Unit H where
  options := {}
  runId := .ofNat 0
  cancelled _ := false
  wall _ := ⟨0, 0⟩
  instant _ := 0
  publish _ w := w
  memory w := w
  setMemory h _ := h
  encode _ := none
  save _ x := .ok x

theorem Environment.still_calm (C H : Type) : (Environment.still C H).Calm :=
  ⟨fun _ => rfl, fun _ _ => rfl, fun _ _ => rfl, fun _ x w => ⟨x, w, rfl, rfl⟩⟩

/-- A step that never waits. -/
structure Step.Prompt (s : Step C H) : Prop where
  execute : ∀ x, (s.execute.runNow x).isSome
  compensate : ∀ work ∈ s.compensate, ∀ x, (work.runNow x).isSome

/-- The state of a run, with the calls made so far. -/
abbrev Stand (C H X ω : Type) := (Board C H X × ω) × List (Called (Board C H X × ω))

/-- What a step can see of the state of a run. -/
def Environment.view (env : Environment C H X ω) (x : Board C H X × ω) : C × H :=
  (x.1.context, env.memory x.2)

/-- A run stands where a reading does: on the same state, after the same calls. -/
structure Scene.Seen (env : Environment C H X ω) (p : Scene C H) (x : Stand C H X ω) : Prop where
  state : env.view x.1 = p.state
  done : x.2.map (fun c => (c.work, env.view c.on)) =
    p.done.map fun (s, y) => (env.onBoard s.execute, y)
  prompt : ∀ y ∈ x.1.1.ledger.completed, y.2.Prompt

/-- Where flow goes from a step that came to an outcome. -/
def Step.turn (s : Step C H) (node : NodeId) (next : Option NodeId) (attempts : Nat) :
    StepOutcome → Turn
  | .success => .onward next.toList
  | .failure error _ => .failed ⟨some s.name, some node, attempts, error.message⟩
  | .suspended signal limit => .suspended signal limit

variable {env : Environment C H X ω}

/-- What is done to the rest of the board and the world does not matter to a reading. -/
theorem Scene.Seen.congr {p : Scene C H} {x : Stand C H X ω} {y : Board C H X × ω}
    (h : p.Seen env x) (hview : env.view y = env.view x.1)
    (hcompleted : y.1.ledger.completed = x.1.1.ledger.completed) : p.Seen env (y, x.2) :=
  ⟨hview.trans h.state, h.done, hcompleted ▸ h.prompt⟩

namespace Environment

/-- Work of a step on the board does what it does to the state that it sees. -/
theorem runNow_onBoard (hcalm : env.Calm) {work : Work (C × H) StepResult}
    {e : Work.End StepResult} {t : C × H} {x : Board C H X × ω}
    (h : work.runNow (env.view x) = some (e, t)) :
    ∃ w, (env.onBoard work).runNow x = some (e, { x.1 with context := t.1 }, w) ∧
      env.memory w = t.2 := by
  induction work generalizing x with
  | done a | crash m =>
    cases h
    exact ⟨x.2, rfl, rfl⟩
  | act f rest ih =>
    have hview : env.view ({ x.1 with context := (f (env.view x)).1 },
        env.setMemory (f (env.view x)).2 x.2) = f (env.view x) := by
      simp only [view, hcalm.memory_set]
    rw [Work.runNow] at h
    rw [← hview] at h
    exact ih _ h
  | sleep | awaitCancel => simp [Work.runNow] at h

theorem announce_memory (hcalm : env.Calm) (what : Happening) (w : ω) :
    env.memory (env.announce what w) = env.memory w := hcalm.memory_publish _ _

theorem isCancelled_gives (hcalm : env.Calm) (x : Stand C H X ω) :
    (env.isCancelled).Gives x false x := by
  have h : (env.isCancelled).Gives x (env.cancelled x.1.2) x := .read _
  rwa [hcalm.cancelled] at h

/-- One attempt. -/
theorem attempt_gives (hcalm : env.Calm) {s : Step C H} (hs : s.Prompt) {p : Scene C H}
    {x : Stand C H X ω} (hp : p.Seen env x) :
    ∃ q r y, s.try p = some (q, r.outcome) ∧ (env.attempt s).Gives x r y ∧ q.Seen env y ∧
      y.1.1.visits = x.1.1.visits := by
  obtain ⟨⟨e, t⟩, hrun⟩ := Option.isSome_iff_exists.1 (hs.execute p.state)
  have hview : s.execute.runNow (env.view x.1) = some (e, t) := by rw [hp.state, hrun]
  obtain ⟨w, hboard, hw⟩ := runNow_onBoard hcalm hview
  have hcall : (Piece.call s.limit (env.onBoard s.execute) : Part C H X ω CallEnd).Gives x _ _ :=
    .call s.limit hboard
  have hseen : Scene.Seen env ⟨t, p.done ++ [(s, p.state)]⟩
      (({ x.1.1 with context := t.1 }, w), x.2 ++ [⟨env.onBoard s.execute, x.1⟩]) := by
    refine ⟨by simp only [view, hw], ?_, hp.prompt⟩
    simp only [List.map_append, hp.done, List.map_cons, List.map_nil, hp.state]
  have htry : s.try p = some (⟨t, p.done ++ [(s, p.state)]⟩, e.outcome) := by
    rw [Step.try, hrun, Option.map_some]
  cases e with
  | done r =>
    refine ⟨_, r, _, htry, hcall.bind ?_, hseen, rfl⟩
    exact (isCancelled_gives hcalm _).bind .pure
  | crash m =>
    refine ⟨_, .failure (.panicked m), _, htry, hcall.bind ?_, hseen, rfl⟩
    exact (isCancelled_gives hcalm _).bind .pure

theorem announcing_gives (hcalm : env.Calm) (what : Happening) {p : Scene C H}
    {x : Stand C H X ω} (hp : p.Seen env x) :
    ∃ y, (env.announcing what).Gives x () y ∧ p.Seen env y ∧ y.1.1 = x.1.1 :=
  ⟨_, .modify _, hp.congr (by simp only [view, announce_memory hcalm]) rfl, rfl⟩

theorem counting_gives (f : Metrics → Metrics) {p : Scene C H} {x : Stand C H X ω}
    (hp : p.Seen env x) :
    ∃ y, (counting f : Part C H X ω Unit).Gives x () y ∧ p.Seen env y ∧
      y.1.1.visits = x.1.1.visits :=
  ⟨_, .modify _, hp.congr rfl rfl, rfl⟩

theorem resting_gives (d : Nanos) (x : Stand C H X ω) :
    (resting d : Part C H X ω Unit).Gives x () x :=
  (Piece.Gives.pause d).bind .pure

theorem judge_gives (hcalm : env.Calm) (node : NodeId) (s : Step C H) (policy : RetryPolicy)
    (attempt : Nat) (r : StepResult) {p : Scene C H} {x : Stand C H X ω} (hp : p.Seen env x) :
    ∃ y, (env.judge node s policy attempt r).Gives x (s.mayRepeat policy attempt r.outcome) y ∧
      p.Seen env y ∧ y.1.1.visits = x.1.1.visits := by
  unfold judge
  cases r.outcome with
  | success | suspended => exact ⟨x, .pure, hp, rfl⟩
  | failure error shouldRetry =>
    obtain ⟨y, hsaid, hy, hsame⟩ := announcing_gives hcalm (.stepFailed node s.name error.message
      (shouldRetry && s.canRetry && policy.allowsRetry attempt error)) hp
    exact ⟨y, hsaid.bind .pure, hy, by rw [hsame]⟩

/-- The attempts at a step are those of the reading. -/
theorem attempts_gives (hcalm : env.Calm) {s : Step C H} (hs : s.Prompt) (node : NodeId)
    (policy : RetryPolicy) (spare attempt : Nat) {p : Scene C H} {x : Stand C H X ω}
    (hp : p.Seen env x) :
    ∃ q n r y, s.tries policy spare attempt p = some (q, r.outcome, n) ∧
      (env.attempts node s policy spare attempt).Gives x (r, n) y ∧
      q.Seen env y ∧ y.1.1.visits = x.1.1.visits := by
  induction spare generalizing attempt p x with
  | zero =>
    obtain ⟨q, r, y, htry, hgives, hq, hy⟩ := attempt_gives hcalm hs hp
    obtain ⟨z, hjudge, hz, hsame⟩ := judge_gives hcalm node s policy attempt r hq
    refine ⟨q, attempt, r, z, by rw [Step.tries, htry, Option.map_some], ?_, hz, by rw [hsame, hy]⟩
    rw [attempts]
    exact hgives.bind (hjudge.bind .pure)
  | succ spare ih =>
    obtain ⟨q, r, y, htry, hgives, hq, hy⟩ := attempt_gives hcalm hs hp
    obtain ⟨z, hjudge, hz, hsame⟩ := judge_gives hcalm node s policy attempt r hq
    rw [Step.tries, htry, attempts]
    simp only [Option.bind_eq_bind, Option.bind_some]
    cases hagain : s.mayRepeat policy attempt r.outcome with
    | false =>
      rw [hagain] at hjudge
      exact ⟨q, attempt, r, z, rfl, hgives.bind (hjudge.bind .pure), hz, by rw [hsame, hy]⟩
    | true =>
      rw [hagain] at hjudge
      obtain ⟨u, hcount, hu, hsame'⟩ :=
        counting_gives (fun m => { m with retries := m.retries + 1 }) hz
      obtain ⟨q', n, r', v, htries, hmore, hq', hv⟩ := ih (attempt + 1) hu
      refine ⟨q', n, r', v, htries, hgives.bind (hjudge.bind ?_), hq',
        by rw [hv, hsame', hsame, hy]⟩
      exact hcount.bind ((resting_gives _ _).bind hmore)

theorem trackContextSize_gives {p : Scene C H} {x : Stand C H X ω} (hp : p.Seen env x) :
    ∃ y, env.trackContextSize.Gives x () y ∧ p.Seen env y ∧ y.1.1.visits = x.1.1.visits := by
  unfold trackContextSize
  split
  · refine ⟨_, .modify _, ?_, ?_⟩
    · cases henc : env.encode x.1.1.context with
      | none => exact hp.congr (by simp only [henc]) (by simp only [henc])
      | some j => exact hp.congr (by simp only [henc]; rfl) (by simp only [henc])
    · cases henc : env.encode x.1.1.context <;> simp only [henc]
  · exact ⟨x, .pure, hp, rfl⟩

/-- The books at the end of a step do not matter to a reading. -/
theorem settle_gives (hcalm : env.Calm) {s : Step C H} (hs : s.Prompt) (node : NodeId)
    (next : Option NodeId) (startedAt : Timestamp) (r : StepResult) (n : Nat) {p : Scene C H}
    {x : Stand C H X ω} (hp : p.Seen env x) :
    ∃ v y, (env.settle node s next startedAt r n).Gives x v y ∧
      v.turn = s.turn node next n r.outcome ∧ p.Seen env y ∧ y.1.1.visits = x.1.1.visits := by
  have hnow : (env.now).Gives x (env.wall x.1.2) x := .read _
  unfold settle
  cases r.outcome with
  | success =>
    have hbooks : p.Seen env (({ x.1.1 with ledger := { x.1.1.ledger with
        completed := x.1.1.ledger.completed ++ if s.compensates then [(node, s)] else []
        metrics := { x.1.1.ledger.metrics with
          executed := x.1.1.ledger.metrics.executed + 1 } } }, x.1.2), x.2) := by
      refine ⟨hp.state, hp.done, fun y hy => ?_⟩
      rcases List.mem_append.1 hy with hy | hy
      · exact hp.prompt y hy
      · split at hy
        · rw [List.mem_singleton.1 hy]
          exact hs
        · simp at hy
    obtain ⟨y, hsaid, hy, hsame⟩ := announcing_gives hcalm (.stepCompleted node s.name n
      (StepTrace.durationMillis ⟨s.name, node, startedAt, env.wall x.1.2, .succeeded, n⟩).toNat)
      hbooks
    obtain ⟨z, htrack, hz, hsame'⟩ := trackContextSize_gives hy
    exact ⟨_, z, hnow.bind ((Piece.Gives.modify _).bind (hsaid.bind (htrack.bind .pure))), rfl, hz,
      by rw [hsame', hsame]⟩
  | failure error shouldRetry =>
    obtain ⟨y, hcount, hy, hsame⟩ := counting_gives (fun m => { m with failed := m.failed + 1 }) hp
    exact ⟨_, y, hnow.bind (hcount.bind .pure), rfl, hy, hsame⟩
  | suspended signal limit => exact ⟨_, x, hnow.bind .pure, rfl, hp, rfl⟩

/-- A step node is passed as the reading passes the step. -/
theorem runStep_gives (hcalm : env.Calm) {s : Step C H} (hs : s.Prompt) (node : NodeId)
    (next : Option NodeId) {p : Scene C H} {x : Stand C H X ω} (hp : p.Seen env x) :
    ∃ q outcome n v y, s.read env.options.retry p = some (q, s.ending n outcome) ∧
      (env.runStep node s next).Gives x v y ∧ v.turn = s.turn node next n outcome ∧
      q.Seen env y ∧ y.1.1.visits = x.1.1.visits := by
  have hnow : (env.now).Gives x (env.wall x.1.2) x := .read _
  obtain ⟨q, n, r, y, htries, hattempts, hq, hy⟩ := attempts_gives hcalm hs node
    (s.retryPolicy.getD env.options.retry)
    ((s.retryPolicy.getD env.options.retry).maxAttempts - 1) 1 hp
  obtain ⟨v, z, hsettle, hturn, hz, hsame⟩ :=
    settle_gives hcalm hs node next (env.wall x.1.2) r n hq
  refine ⟨q, r.outcome, n, v, z, ?_, ?_, hturn, hz, by rw [hsame, hy]⟩
  · simp only [Step.read, htries, Option.bind_eq_bind, Option.bind_some]
    rfl
  · exact hnow.bind (hattempts.bind hsettle)

/-- A visit within the limit is counted. -/
theorem countVisit_gives (hcalm : env.Calm) {x : Stand C H X ω}
    (hlimit : x.1.1.visits + 1 ≤ env.options.maxNodeVisits) :
    (Piece.update env.countVisit : Part C H X ω Admission).Gives x .admitted
      (({ x.1.1 with visits := x.1.1.visits + 1 }, x.1.2), x.2) := by
  have h : (Piece.update env.countVisit : Part C H X ω Admission).Gives x _ _ := .update _
  simp only [countVisit, hcalm.cancelled, Bool.false_eq_true, if_false,
    if_neg (Nat.not_lt.2 hlimit)] at h
  exact h

end Environment

end DurableWorkflow

import DurableWorkflow.Proofs.Run.Books
import DurableWorkflow.Proofs.Run.Compensation
import DurableWorkflow.Proofs.Run.Passage

/-!
# What a run has counted

The metrics of a run that was not late are what its trace tells (`metrics_of_trace`), and they are
what was published while it went on, but for the failure of a step to which a signal was delivered,
which is published nowhere (`run_tells`).
-/

namespace DurableWorkflow

variable {C H X ω : Type}

theorem sum_tally_published (events : List Event) :
    (events.map (·.what.tally)).sum =
      ((events.countP fun e => e.what matches .stepCompleted .. : ℤ),
        (events.countP fun e => e.what matches .stepFailed _ _ _ true : ℤ),
        (events.countP fun e => e.what matches .stepFailed _ _ _ false : ℤ)) := by
  induction events with
  | nil => rfl
  | cons e events ih =>
    rw [List.map_cons, List.sum_cons, ih]
    obtain ⟨run, what⟩ := e
    cases what with
    | stepFailed node step error willRetry =>
      cases willRetry <;> simp [Happening.tally, add_comm]
    | _ => simp [Happening.tally, add_comm]

namespace Environment

variable {env : Environment C H X ω} {heard : ω → Counts} {k : ℤ} {drift : ω → ω → Prop}
  {d : Definition C H} {start : StartPoint} {context : C} {extra extra' : X} {w v : ω}
  {result : RunResult C}

theorem Hears.outside (h : env.Hears heard k) (hdrift : ∀ {w v}, drift w v → heard v = heard w) :
    env.Outside drift fun w v => heard v = heard w where
  refl _ := rfl
  trans huv hvw := hvw.trans huv
  drift := hdrift
  memory m w := h.memory m w
  started id w := by rw [h.announce]; exact add_eq_left.2 (zsmul_zero k)
  completed id millis executed w := by rw [h.announce]; exact add_eq_left.2 (zsmul_zero k)
  failed id error w := by rw [h.announce]; exact add_eq_left.2 (zsmul_zero k)

/-- What a run has counted is what has been heard of, and what its entries tell besides. -/
theorem Hears.run_settles (h : env.Hears heard k)
    (hdrift : ∀ {w v}, drift w v → heard v = heard w) (hw : heard w = 0)
    (hcomes : (env.run d start context extra).Comes drift w (extra', some result) v)
    (htime : ¬result.IsLate d) :
    ∃ r, outcome d (some r) = some result.outcome ∧ r.Closes result.trace ∧
      result.metrics.tally = heard v + (1 - k) • (result.trace.map StepTrace.tally).sum +
        untold start result.trace • k • (0, 0, 1) := by
  obtain ⟨u, t, path, board, report, hwu, htv, hpasses⟩ := run_passes (h.outside hdrift) hcomes
  obtain ⟨r, rfl, houtcome⟩ := hpasses.report htime
  have hbegin : (accounts C H X heard k).sound ({ context, extra }, u) (settled k []) := by
    refine ⟨?_, rfl⟩
    rw [balance, hwu, hw]
    rfl
  have hstill : ∀ {s t : Board C H X × ω}, Beside drift s t →
      (accounts C H X heard k).still s t := fun hst =>
    ⟨by simp only [balance, hst.1, hdrift hst.2], by rw [hst.1]⟩
  obtain ⟨⟨owed, hands⟩, ⟨hbalance, hhands⟩, hholds⟩ :=
    (traverse_books h d start).moves hstill hpasses.walked hbegin
  rcases hholds with hcancelled | ⟨entries, hcloses, hsettled⟩
  · have hhalt : r.halt = .cancelled := beq_iff_eq.1 hcancelled
    simp [outcome, hhalt] at houtcome
  · rw [settled_eq] at hsettled
    have hrights : hands = {entries} := by
      simpa [Holdings.hand, Weights.counted] using congrArg Prod.snd hsettled
    have howed : owed + untold start entries • -k • (0, 0, 1) =
        (1 - k) • (entries.map StepTrace.tally).sum := by
      simpa [Holdings.hand, Weights.counted] using congrArg Prod.fst hsettled
    have htrace : result.trace = entries :=
      hpasses.trace.trans (Multiset.singleton_inj.1 (hhands.symm.trans hrights))
    obtain ⟨millis, hmetrics⟩ := hpasses.metrics
    have htally : result.metrics.tally = heard t + owed := by
      have hboard : board.ledger.metrics.tally - heard t = owed := hbalance
      rw [hmetrics, ← hboard]
      exact (add_sub_cancel _ _).symm
    refine ⟨r, houtcome, htrace ▸ hcloses, ?_⟩
    rw [htally, htv, htrace, ← howed, neg_zsmul, neg_nsmul]
    abel

/-- The same surroundings, with a record of what is published. -/
def listening (env : Environment C H X ω) : Environment C H X (ω × List Event) where
  options := env.options
  runId := env.runId
  cancelled w := env.cancelled w.1
  wall w := env.wall w.1
  instant w := env.instant w.1
  publish e w := (env.publish e w.1, w.2 ++ [e])
  memory w := env.memory w.1
  setMemory h w := (env.setMemory h w.1, w.2)
  encode := env.encode
  save p s := (env.save p (s.1, s.2.1)).map fun (x, w) => (x, w, s.2.2)

/-- The others publish nothing that is recorded. -/
def Unheard (w v : ω × List Event) : Prop := v.2 = w.2

/-- What was published of steps. -/
def published (w : ω × List Event) : Counts := (w.2.map (·.what.tally)).sum

theorem listening_save {p : Checkpoint C} {x x' : X} {w w' : ω × List Event}
    (h : env.listening.save p (x, w) = .ok (x', w')) : w'.2 = w.2 := by
  simp only [listening] at h
  cases hsave : env.save p (x, w.1) with
  | error m => simp [hsave, Except.map] at h
  | ok saved =>
    rw [hsave] at h
    cases h
    rfl

theorem listening_hears (env : Environment C H X ω) : env.listening.Hears published 1 where
  announce what w := by simp [listening, announce, published]
  memory _ _ := rfl
  save hsave := by rw [published, published, listening_save hsave]

/-- What a run has counted that was not late has been published: each success, each failure after
which the step was tried again, and each failure for good. Only the failure of a step to which a
signal was delivered has been counted and not been published. -/
theorem run_tells {events : List Event}
    (h : Moves Unheard Course.Step
      (env.listening.run d start context extra, w, []) (.done (extra', some result), v, events))
    (htime : ¬result.IsLate d) :
    (events.countP fun e => e.what matches .stepCompleted ..) = result.metrics.executed ∧
      (events.countP fun e => e.what matches .stepFailed _ _ _ true) = result.metrics.retries ∧
      (events.countP fun e => e.what matches .stepFailed _ _ _ false) +
        untold start result.trace = result.metrics.failed := by
  have hdrift : ∀ {w v : ω × List Event}, Unheard w v → published v = published w := fun hsame =>
    congrArg (fun events => (events.map (·.what.tally)).sum) hsame
  obtain ⟨r, -, -, htally⟩ := env.listening_hears.run_settles hdrift rfl h htime
  rw [sub_self, zero_zsmul, add_zero, one_zsmul, published, sum_tally_published] at htally
  simp only [Metrics.tally, Prod.smul_mk, nsmul_eq_mul, mul_zero, mul_one, Prod.mk_add_mk,
    add_zero, Prod.mk.injEq, Nat.cast_inj] at htally
  obtain ⟨hexecuted, hretries, hfailed⟩ := htally
  exact ⟨hexecuted.symm, hretries.symm, by omega⟩

/-! ### A journey -/

/-- The line is busy at the first call. -/
def call : Step Nat Unit where
  name := "call"
  execute := .act (fun (calls, u) => (calls + 1, u)) fun (calls, _) =>
    .done (if calls = 0 then .retryable (.failed "busy") else .success)

/-- A taxi is called while the bags are packed; then the traveller waits for it, and does not take
it. -/
def journey : Definition Nat Unit where
  id := "journey"
  name := "journey"
  version := ⟨1, 0, 0, "", ""⟩
  limit := none
  root := 0
  graph := ⟨#[
    { kind := .parallel [1, 2], next := some 3 },
    { kind := .step call },
    { kind := .step { name := "pack", execute := .done .success } },
    { kind := .step
        { name := "taxi"
          execute := .done (.suspend "honk")
          onSignal := fun _ => .done (.failure (.failed "too late")) } }]⟩

/-- The taxi is there. -/
def honk : StartPoint := .signal 3 [] ⟨"honk", .null, ⟨0, 0⟩⟩

/-- It does not wait, and nobody is told. -/
theorem run_tells_journey : ∃ (result : RunResult Nat) (events : List Event),
    Moves Unheard Course.Step (quietly.listening.run journey honk 0 (), (), [])
      (.done ((), some result), (), events) ∧
    result.metrics.failed = 1 ∧ untold honk result.trace = 1 ∧
    (events.countP fun e => e.what matches .stepFailed _ _ _ false) = 0 := by
  have hend : ((quietly.listening.run journey honk 0 ()).inOrder (((), []), [])).bind
      (fun x => (result? x.1).map fun result =>
        (result.metrics.failed, untold honk result.trace)) = some (1, 1) := by decide +kernel
  obtain ⟨⟨⟩, result, ⟨⟨⟩, events⟩, hmoves, hcounted⟩ := exists_of_inOrder hend Unheard
  obtain ⟨hfailed, huntold⟩ := Prod.mk.inj hcounted
  have htime : ¬result.IsLate journey := by
    rintro ⟨limit, hlimit, -⟩
    cases hlimit
  obtain ⟨-, -, htold⟩ := run_tells hmoves htime
  exact ⟨result, events, hmoves, hfailed, huntold, by omega⟩

end Environment

end DurableWorkflow

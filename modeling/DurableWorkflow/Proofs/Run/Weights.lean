import DurableWorkflow.Proofs.Run.Keeps
import DurableWorkflow.Proofs.Walk.Holds

/-!
# What a step weighs

A step that is run to its end is counted, is told of to the subscribers, and leaves an entry. These
happen one after the other, with anything in between, and the entry is in the books last of all. So
the walk that runs the step has something at stake all the while, and when it hands on the entry it
holds exactly what the entry weighs (`runStep_trades`). Where each of these acts has a weight of its
own, what is held is the weight of all that has been done so far (`runStep_holds`). A signal is
delivered without the failure being told (`settle_holds`). A node that is no step has nothing at stake
itself (`enter_holds`).
-/

namespace DurableWorkflow

variable {C H X ω R : Type} [AddCommMonoid R]

/-- What the acts of a step weigh. -/
structure Weights (R : Type) where
  /-- A success, a failure and another attempt, as they are counted. -/
  executed : R
  failed : R
  retried : R
  /-- A success, a failure, and one that will be tried again, as they are told. -/
  completed : R
  gaveUp : R
  again : R

namespace Weights

variable (W : Weights R)

/-- Nothing of it weighs anything. -/
def nothing : Weights R := ⟨0, 0, 0, 0, 0, 0⟩

def heard : Happening → R
  | .stepCompleted .. => W.completed
  | .stepFailed _ _ _ true => W.again
  | .stepFailed _ _ _ false => W.gaveUp
  | _ => 0

/-- What is done when a step has come to an end. -/
def ofEnd : TraceOutcome → R
  | .succeeded => W.executed + W.completed
  | .failed .. => W.failed
  | .suspended _ => 0

/-- What the last attempt tells when it fails. -/
def ofLast : TraceOutcome → R
  | .failed .. => W.gaveUp
  | .succeeded | .suspended _ => 0

def ofEntry (t : StepTrace) : R :=
  (t.attempts - 1) • (W.again + W.retried) + (W.ofLast t.outcome + W.ofEnd t.outcome)

def ofTrace (entries : List StepTrace) : R := (entries.map W.ofEntry).sum

variable {W}

@[simp]
theorem ofTrace_nil : W.ofTrace [] = 0 := rfl

@[simp]
theorem ofTrace_singleton (t : StepTrace) : W.ofTrace [t] = W.ofEntry t := by simp [ofTrace]

@[simp]
theorem ofTrace_append (l l' : List StepTrace) :
    W.ofTrace (l ++ l') = W.ofTrace l + W.ofTrace l' := by simp [ofTrace]

@[simp]
theorem nothing_heard (what : Happening) : (nothing : Weights R).heard what = 0 := by
  unfold heard
  split <;> rfl

@[simp]
theorem nothing_ofEntry (t : StepTrace) : (nothing : Weights R).ofEntry t = 0 := by
  cases h : t.outcome <;> simp [ofEntry, ofLast, ofEnd, nothing, h]

end Weights

/-- What is at stake for a walk that runs a step. -/
structure Stakes (R : Type) where
  /-- Held during the attempt that follows so many others. -/
  held : Nat → R
  /-- It has failed, and was told that it is tried again. -/
  again : Nat → R
  /-- It has failed, and was told that it is not. -/
  lost : Nat → R
  /-- Its success was entered into the books. -/
  entered : Nat → R
  /-- The weight of an entry with this outcome after so many attempts. -/
  entry : TraceOutcome → Nat → R

/-- What is held after the last attempt, which follows so many others and came to this. -/
def Stakes.after (K : Stakes R) (n : Nat) : StepOutcome → R
  | .failure .. => K.lost n
  | .success | .suspended .. => K.held n

/-- What leaves the holdings alone. -/
structure Environment.Neutral (env : Environment C H X ω) (S : Shares (Board C H X × ω) Report R) :
    Prop where
  stopped : S.void { halt := .cancelled }
  look : S.Adds id 0
  memory : ∀ b c h w, S.still (b, w) ({ b with context := c }, env.setMemory h w)
  peak : ∀ bytes, S.Adds (fun (b, w) => ({ b with ledger.metrics.peakContextBytes := bytes }, w)) 0

/-- The acts that end a step at the node make of the holdings what is at stake. -/
structure Environment.Backs (env : Environment C H X ω) (S : Shares (Board C H X × ω) Report R)
    (node : NodeId) (s : Step C H) (K : Stakes R) : Prop where
  failure : ∀ n message shouldRetry, S.Trades (fun (b, w) =>
    ({ b with ledger.metrics.failed := b.ledger.metrics.failed + 1 }, w)) (K.lost n)
    (K.entry (.failed message shouldRetry) (n + 1))
  success : ∀ n, S.Trades (fun (b, w) => (b.enter node s, w)) (K.held n) (K.entered n)
  completed : ∀ n millis, S.Trades
    (fun (b, w) => (b, env.announce (.stepCompleted node s.name (n + 1) millis) w)) (K.entered n)
    (K.entry .succeeded (n + 1))
  suspended : ∀ n signal, K.entry (.suspended signal) (n + 1) = K.held n

/-- All acts of a step at the node make of the holdings what is at stake. -/
structure Environment.Stands (env : Environment C H X ω) (S : Shares (Board C H X × ω) Report R)
    (node : NodeId) (s : Step C H) (K : Stakes R) : Prop extends env.Backs S node s K where
  first : K.held 0 = 0
  again : ∀ n error, S.Trades
    (fun (b, w) => (b, env.announce (.stepFailed node s.name error true) w)) (K.held n) (K.again n)
  retry : ∀ n, S.Trades (fun (b, w) =>
    ({ b with ledger.metrics.retries := b.ledger.metrics.retries + 1 }, w)) (K.again n)
    (K.held (n + 1))
  gaveUp : ∀ n error, S.Trades
    (fun (b, w) => (b, env.announce (.stepFailed node s.name error false) w)) (K.held n) (K.lost n)

namespace Weights

/-- At stake is what the end of a step weighs. -/
def ending (W : Weights R) : Stakes R where
  held _ := 0
  again _ := W.again
  lost _ := 0
  entered _ := W.executed
  entry outcome _ := W.ofEnd outcome

/-- At stake is the weight of all that has been done. -/
def stakes (W : Weights R) : Stakes R where
  held n := n • (W.again + W.retried)
  again n := n • (W.again + W.retried) + W.again
  lost n := n • (W.again + W.retried) + W.gaveUp
  entered n := n • (W.again + W.retried) + W.executed
  entry outcome attempts :=
    (attempts - 1) • (W.again + W.retried) + (W.ofLast outcome + W.ofEnd outcome)

end Weights

/-- The actions at a step add their weights to what a walk holds, and nothing else does. -/
structure Environment.Weighs (env : Environment C H X ω) (S : Shares (Board C H X × ω) Report R)
    (W : Weights R) : Prop extends env.Neutral S where
  success : ∀ node s, S.Adds (fun (b, w) => (b.enter node s, w)) W.executed
  failure : S.Adds (fun (b, w) =>
    ({ b with ledger.metrics.failed := b.ledger.metrics.failed + 1 }, w)) W.failed
  retry : S.Adds (fun (b, w) =>
    ({ b with ledger.metrics.retries := b.ledger.metrics.retries + 1 }, w)) W.retried
  announce : ∀ what, what.isOfRun = true →
    S.Adds (fun (b, w) => (b, env.announce what w)) (W.heard what)

/-- What comes of a step at the node, which leaves the entry `t`. -/
structure Visited.OfStep (node : NodeId) (t : StepTrace) (v : Visited) : Prop where
  trace : v.trace = [t]
  node : t.node = node
  attempts : 1 ≤ t.attempts
  onward : ∀ nodes, v.turn = .onward nodes → t.outcome = .succeeded
  failed : ∀ f, v.turn = .failed f → f.attempts = t.attempts
  suspended : ∀ signal limit, v.turn = .suspended signal limit → t.outcome = .suspended signal

namespace Environment

variable {env : Environment C H X ω} {S : Shares (Board C H X × ω) Report R} {W : Weights R}
  {K : Stakes R} {a : R} {node : NodeId} {s : Step C H}

/-! ### What leaves the holdings alone -/

theorem stop_holds {α : Type} (h : env.Neutral S) {V : α → R → Prop} :
    (stop : Part C H X ω α).Holds S a V := .halt h.stopped

theorem isCancelled_holds (h : env.Neutral S) : env.isCancelled.Holds S a fun _ b => b = a :=
  (Piece.Holds.read _ h.look).mono fun _ _ hb => hb.2

theorem now_holds (h : env.Neutral S) : env.now.Holds S a fun _ b => b = a :=
  (Piece.Holds.read _ h.look).mono fun _ _ hb => hb.2

theorem resting_holds (h : env.Neutral S) (d : Nanos) :
    (resting d : Part C H X ω Unit).Holds S a fun _ b => b = a := by
  refine (Piece.Holds.pause d).bind fun cancelled b hb => ?_
  cases cancelled
  · exact .pure hb
  · exact stop_holds h

theorem attempt_holds (h : env.Neutral S) (s : Step C H) :
    (env.attempt s).Holds S a fun _ b => b = a := by
  refine (Piece.Holds.call s.limit (onBoard_keeps h.memory s.execute)).bind fun ending b hb => ?_
  have hcheck (r : StepResult) : (do
      if ← env.isCancelled then stop else pure r :
      Part C H X ω StepResult).Holds S b fun _ b => b = a := by
    refine (isCancelled_holds h).bind fun cancelled c hc => ?_
    cases cancelled
    · exact .pure (hc.trans hb)
    · exact stop_holds h
  cases ending with
  | timedOut => exact .pure hb
  | cancelled => exact stop_holds h
  | finished r => exact hcheck r
  | crashed m => exact hcheck _

theorem trackContextSize_holds (h : env.Neutral S) :
    env.trackContextSize.Holds S a fun _ b => b = a := by
  unfold trackContextSize
  split
  · refine (Piece.Holds.modify (g := (0 : R)) ?_).mono fun _ b hb => hb.trans (add_zero a)
    rintro v ⟨b, w⟩ held hs
    simp only
    split
    · exact h.look v (b, w) held hs
    · exact h.peak _ v (b, w) held hs
  · exact .pure rfl

/-- A choice weighs nothing, and leaves no entry. -/
theorem choose_holds (h : env.Neutral S) (node : NodeId) (holds : Predicate C)
    (t e next : Option NodeId) :
    (choose node holds t e next : Part C H X ω Visited).Holds S a fun v b => b = a ∧
      ((∃ nodes, v = .onward nodes) ∨ ∃ m, v = .engineFailure "conditional" node m) := by
  refine (Piece.Holds.read _ h.look).bind fun verdict b hb => ?_
  cases verdict with
  | ok b => exact .pure ⟨hb.2, .inl ⟨_, rfl⟩⟩
  | error m => exact .pure ⟨hb.2, .inr ⟨_, rfl⟩⟩

/-! ### Nodes -/

variable {g : Graph C H} {branch : NodeId → Walk (Board C H X × ω) Report} {b : R}
  {V : Visited → R → Prop}

theorem allHold_branches (hbranch : ∀ child, (branch child).Holds S S.report 0)
    (children : List NodeId) : allHold S (children.map branch) 0 := by
  induction children with
  | nil => rfl
  | cons child children ih => exact ⟨0, 0, (add_zero 0).symm, hbranch child, ih⟩

/-- Branches of which none was cancelled leave what they report to the node. -/
theorem runParallel_holds (h : env.Neutral S) {children : List NodeId} {next : Option NodeId}
    (hall : allHold S (children.map branch) b)
    (hjoin : ∀ reports c, S.Reports reports c → (∀ r ∈ reports, r.isCancelled = false) →
      V (join reports next) (c + a)) :
    (env.runParallel branch children next).Holds S (b + a) V := by
  refine (Piece.Holds.fork hall).bind ?_
  rintro reports c ⟨d, hreports, rfl⟩
  refine (isCancelled_holds h).bind fun cancelled c hc => ?_
  subst hc
  split
  · exact stop_holds h
  · next hcalm =>
    simp only [Bool.or_eq_true, List.any_eq_true, not_or, not_exists, not_and,
      Bool.not_eq_true] at hcalm
    exact .pure (hjoin reports d hreports hcalm.2)

/-- Only at steps and at parallel nodes is anything at stake. -/
theorem enter_holds (h : env.Neutral S) {n : Node C H} (honward : ∀ nodes, V (.onward nodes) a)
    (hfailed : ∀ m, V (.engineFailure "conditional" node m) a)
    (hstep : ∀ s, (env.runStep node s n.next).Holds S a V)
    (hparallel : ∀ children, n.kind = .parallel children →
      (env.runParallel branch children n.next).Holds S a V) :
    (env.enter branch node n).Holds S a V := by
  unfold enter
  cases hkind : n.kind with
  | step s => exact hstep s
  | sequence children => exact .pure (honward _)
  | conditional holds t e =>
    refine (choose_holds h node holds t e n.next).mono ?_
    rintro v b ⟨rfl, ⟨nodes, rfl⟩ | ⟨m, rfl⟩⟩
    · exact honward nodes
    · exact hfailed m
  | parallel children => exact hparallel children hkind
  | delay d =>
    refine (resting_holds h d).bind fun _ b hb => ?_
    subst hb
    exact .pure (honward _)

theorem visit_holds (h : env.Neutral S) (hcount : S.Adds (fun s => (env.countVisit s).2) 0)
    (hfailed : ∀ m, V (.engineFailure "engine" node m) a)
    (henter : ∀ n, (env.enter branch node n).Holds S a V) :
    (env.visit g branch node).Holds S a V := by
  refine (Piece.Holds.update hcount).bind ?_
  rintro admission b ⟨-, rfl⟩
  rw [add_zero]
  cases admission with
  | cancelled => exact stop_holds h
  | refused => exact .pure (hfailed _)
  | admitted =>
    simp only
    split
    · exact .pure (hfailed _)
    · exact henter _

/-- A signal that finds its step is the first and only attempt at it. -/
theorem deliver_holds (h : env.Neutral S) (g : Graph C H) (signal : Signal)
    (hfailed : ∀ label m, V (.engineFailure label node m) a)
    (hsettle : ∀ s next startedAt r, (env.settle node s next startedAt r 1).Holds S a V) :
    (env.deliver g node signal).Holds S a V := by
  unfold deliver
  split
  · exact .pure (hfailed _ _)
  · split
    · exact .pure (hfailed _ _)
    · next s _ =>
      refine (now_holds h).bind fun startedAt b hb => ?_
      subst hb
      refine (Piece.Holds.call none (onBoard_keeps h.memory _)).bind fun ending b hb => ?_
      subst hb
      cases ending with
      | finished r => exact hsettle s _ startedAt r
      | crashed m => exact hsettle s _ startedAt _
      | timedOut | cancelled => exact stop_holds h

/-! ### What is at stake -/

/-- There is another attempt only after one that failed, and it is told so. -/
theorem judge_trades (h : env.Stands S node s K) (policy : RetryPolicy) (n : Nat) (r : StepResult) :
    (env.judge node s policy (n + 1) r).Holds S (a + K.held n) fun willRetry b =>
      if willRetry then n + 1 < policy.maxAttempts ∧ b = a + K.again n
      else b = a + K.after n r.outcome := by
  unfold judge
  cases r.outcome with
  | success | suspended => exact .pure rfl
  | failure error shouldRetry =>
    simp only
    cases hretry : shouldRetry && s.canRetry && policy.allowsRetry (n + 1) error with
    | false => exact (Piece.Holds.trade (h.gaveUp n _)).bind fun _ _ hb => .pure hb
    | true =>
      refine (Piece.Holds.trade (h.again n _)).bind fun _ _ hb => .pure ⟨?_, hb⟩
      exact RetryPolicy.lt_of_allowsRetry (Bool.and_eq_true_iff.1 hretry).2

theorem attempts_trades (hneutral : env.Neutral S) (h : env.Stands S node s K)
    (policy : RetryPolicy) (spare n : Nat) (hall : policy.maxAttempts ≤ spare + (n + 1)) :
    (env.attempts node s policy spare (n + 1)).Holds S (a + K.held n) fun (r, last) b =>
      ∃ m, last = m + 1 ∧ b = a + K.after m r.outcome := by
  induction spare generalizing n with
  | zero =>
    refine (attempt_holds hneutral s).bind fun r b hb => ?_
    subst hb
    refine (judge_trades h policy n r).bind fun willRetry c hc => .pure ⟨n, rfl, ?_⟩
    cases willRetry with
    | true =>
      have hlt : n + 1 < policy.maxAttempts := hc.1
      omega
    | false => exact hc
  | succ spare ih =>
    refine (attempt_holds hneutral s).bind fun r b hb => ?_
    subst hb
    refine (judge_trades h policy n r).bind fun willRetry c hc => ?_
    cases willRetry with
    | false => exact .pure ⟨n, rfl, hc⟩
    | true =>
      obtain ⟨-, rfl⟩ : n + 1 < policy.maxAttempts ∧ c = a + K.again n := hc
      refine (Piece.Holds.trade (h.retry n)).bind fun _ d hd => ?_
      refine (resting_holds hneutral _).bind fun _ e he => ?_
      subst hd he
      exact ih (n + 1) (by omega)

/-- The entry of a step is in the books last of all. -/
theorem settle_trades (hneutral : env.Neutral S) (h : env.Backs S node s K) (next : Option NodeId)
    (startedAt : Timestamp) (r : StepResult) (n : Nat) :
    (env.settle node s next startedAt r (n + 1)).Holds S (a + K.after n r.outcome) fun v b =>
      ∃ t, v.OfStep node t ∧ t.step = s.name ∧ t.attempts = n + 1 ∧
        t.outcome = r.outcome.toTrace ∧ b = a + K.entry t.outcome t.attempts := by
  have hn : 1 ≤ n + 1 := Nat.le_add_left 1 n
  refine (now_holds hneutral).bind fun completedAt b hb => ?_
  subst hb
  cases r.outcome with
  | success =>
    refine (Piece.Holds.trade (h.success n)).bind fun _ c hc => ?_
    subst hc
    refine (Piece.Holds.trade (h.completed n _)).bind fun _ d hd => ?_
    refine (trackContextSize_holds hneutral).bind fun _ e he => ?_
    exact .pure ⟨_, ⟨rfl, rfl, hn, fun _ _ => rfl, by simp, by simp⟩, rfl, rfl, rfl, he.trans hd⟩
  | failure error shouldRetry =>
    refine (Piece.Holds.trade (h.failure n error.message shouldRetry)).bind fun _ c hc => ?_
    refine .pure ⟨_, ⟨rfl, rfl, hn, by simp, fun f hf => ?_, by simp⟩, rfl, rfl, rfl, hc⟩
    cases hf
    rfl
  | suspended signal limit =>
    refine .pure ⟨_, ⟨rfl, rfl, hn, by simp, by simp, fun signal' limit' hturn => ?_⟩, rfl, rfl, rfl,
      by rw [StepOutcome.toTrace, h.suspended]; rfl⟩
    cases hturn
    rfl

theorem runStep_trades (hneutral : env.Neutral S) (h : env.Stands S node s K)
    (next : Option NodeId) :
    (env.runStep node s next).Holds S a fun v b =>
      ∃ t, v.OfStep node t ∧ t.step = s.name ∧ b = a + K.entry t.outcome t.attempts := by
  refine (now_holds hneutral).bind fun startedAt b hb => ?_
  obtain rfl : b = a + K.held 0 := by rw [hb, h.first, add_zero]
  refine (attempts_trades hneutral h _ _ 0 (by omega)).bind ?_
  rintro ⟨r, last⟩ c ⟨n, hlast, rfl⟩
  obtain rfl : last = n + 1 := hlast
  refine (settle_trades hneutral h.toBacks next startedAt r n).mono ?_
  rintro v d ⟨t, hv, hstep, -, -, hd⟩
  exact ⟨t, hv, hstep, hd⟩

/-! ### Weights -/

theorem announcing_holds (h : env.Weighs S W) {what : Happening} (hwhat : what.isOfRun = true) :
    (env.announcing what).Holds S a fun _ b => b = a + W.heard what :=
  .modify (h.announce what hwhat)

theorem Weighs.backs (h : env.Weighs S W) : env.Backs S node s W.ending where
  failure _ _ _ := h.failure.trades (zero_add _).symm
  success _ := (h.success node s).trades (zero_add _).symm
  completed n millis := (h.announce (.stepCompleted node s.name (n + 1) millis) rfl).trades rfl
  suspended _ _ := rfl

theorem Weighs.stands (h : env.Weighs S W) : env.Stands S node s W.stakes where
  failure _ _ _ := h.failure.trades (add_assoc ..).symm
  success _ := (h.success node s).trades rfl
  completed n millis :=
    (h.announce (.stepCompleted node s.name (n + 1) millis) rfl).trades <| by
      simp [Weights.stakes, Weights.ofLast, Weights.ofEnd, Weights.heard, add_assoc]
  suspended _ _ := by simp [Weights.stakes, Weights.ofLast, Weights.ofEnd]
  first := zero_nsmul _
  again _ error := (h.announce (.stepFailed node s.name error true) rfl).trades rfl
  retry _ := h.retry.trades ((succ_nsmul ..).trans (add_assoc ..).symm)
  gaveUp _ error := (h.announce (.stepFailed node s.name error false) rfl).trades rfl

theorem settle_holds (h : env.Weighs S W) (node : NodeId) (s : Step C H) (next : Option NodeId)
    (startedAt : Timestamp) (r : StepResult) {k : Nat} (hk : 1 ≤ k) :
    (env.settle node s next startedAt r k).Holds S a fun v b => ∃ t, v.OfStep node t ∧
      t.attempts = k ∧ t.outcome = r.outcome.toTrace ∧ b = a + W.ofEnd t.outcome := by
  obtain ⟨n, rfl⟩ := Nat.exists_eq_add_of_le' hk
  have hnone : a = a + W.ending.after n r.outcome := by
    cases r.outcome <;> exact (add_zero a).symm
  rw [hnone]
  refine (settle_trades h.toNeutral h.backs next startedAt r n).mono ?_
  rintro v b ⟨t, hv, -, hattempts, houtcome, hb⟩
  refine ⟨t, hv, hattempts, houtcome, ?_⟩
  rw [← hnone]
  exact hb

theorem runStep_holds (h : env.Weighs S W) (node : NodeId) (s : Step C H) (next : Option NodeId) :
    (env.runStep node s next).Holds S a fun v b => ∃ t, v.OfStep node t ∧ b = a + W.ofEntry t := by
  refine (runStep_trades h.toNeutral h.stands next).mono ?_
  rintro v b ⟨t, hv, -, hb⟩
  exact ⟨t, hv, hb⟩

end Environment

end DurableWorkflow

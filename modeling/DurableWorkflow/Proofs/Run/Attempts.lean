import DurableWorkflow.Proofs.Commute.Branch
import DurableWorkflow.Proofs.Run.Accounts
import DurableWorkflow.Proofs.Walk.Way

/-!
# Attempts at a step

A step is tried until an attempt is final: it has succeeded, or waits, or has failed in a way that may
not be tried again. Whatever else goes on, the calls that are seen of a step end with the first one
that is final, and between two of them a retry is counted and the wait of the policy passes
(`runStep_tries`). The last attempt is the one that the entry and the failure tell of.
-/

namespace DurableWorkflow

variable {C H X ω ρ σ ι α β : Type}

namespace Step

variable (s : Step C H) (policy : RetryPolicy)

/-- No attempt follows the one with this number, if it ends like this. -/
def Final (attempt : Nat) (e : CallEnd) : Prop :=
  match (s.result e).outcome with
  | .success | .suspended .. => True
  | .failure error shouldRetry => shouldRetry = false ∨ s.canRetry = false ∨
      (∃ allowed ∈ policy.retryIf, allowed error = false) ∨ policy.maxAttempts ≤ attempt

variable {s policy} {attempt : Nat} {e : CallEnd}

theorem mayRepeat_eq_false_iff :
    s.mayRepeat policy attempt (s.result e).outcome = false ↔ s.Final policy attempt e := by
  unfold mayRepeat Final
  cases (s.result e).outcome with
  | success | suspended => simp
  | failure error shouldRetry =>
    cases shouldRetry <;> cases s.canRetry <;> cases hretry : policy.retryIf <;>
      simp [RetryPolicy.allowsRetry, hretry, or_iff_not_imp_right]

/-- A panic is never tried again. -/
theorem final_crashed (m : String) : s.Final policy attempt (.crashed m) := .inl rfl

theorem lt_of_not_final (h : ¬s.Final policy attempt e) : attempt < policy.maxAttempts := by
  unfold Final at h
  split at h
  · exact absurd trivial h
  · exact absurd trivial h
  · simp only [not_or] at h
    omega

/-- Attempts from this number on, of which the last is the first one that is final. -/
inductive Tries (s : Step C H) (policy : RetryPolicy) : Nat → List CallEnd → Prop
  | last {attempt : Nat} {e : CallEnd} (h : s.Final policy attempt e) : Tries s policy attempt [e]
  | again {attempt : Nat} {e : CallEnd} {ends : List CallEnd} (h : ¬s.Final policy attempt e)
      (hrest : Tries s policy (attempt + 1) ends) : Tries s policy attempt (e :: ends)

namespace Tries

variable {ends : List CallEnd}

theorem ne_nil (h : s.Tries policy attempt ends) : ends ≠ [] := by
  cases h <;> simp

theorem final_iff (h : s.Tries policy attempt ends) (i : Nat) (hi : i < ends.length) :
    s.Final policy (attempt + i) ends[i] ↔ i + 1 = ends.length := by
  induction h generalizing i with
  | last h =>
    obtain rfl : i = 0 := by simpa using hi
    simpa using h
  | @again attempt e ends h hrest ih =>
    cases i with
    | zero => simpa [hrest.ne_nil] using h
    | succ i =>
      have hi' : i < ends.length := by simpa using hi
      simpa [Nat.add_assoc, Nat.add_comm 1] using ih i hi'

/-- However the calls would have gone on, the last attempt is the first that is final. -/
theorem isLeast (h : s.Tries policy 1 ends) {e : Nat → CallEnd}
    (he : ∀ (i : Nat) (hi : i < ends.length), ends[i] = e (i + 1)) :
    IsLeast {k | 1 ≤ k ∧ s.Final policy k (e k)} ends.length := by
  have hpos := List.length_pos_of_ne_nil h.ne_nil
  have hfinal (i : Nat) (hi : i < ends.length) :
      s.Final policy (i + 1) (e (i + 1)) ↔ i + 1 = ends.length := by
    rw [← he i hi, Nat.add_comm]
    exact (h.final_iff i hi).trans (by rw [Nat.add_comm])
  constructor
  · obtain ⟨i, hi⟩ := Nat.exists_eq_succ_of_ne_zero (Nat.pos_iff_ne_zero.1 hpos)
    rw [hi]
    exact ⟨Nat.succ_pos i, (hfinal i (by omega)).2 hi.symm⟩
  · rintro k ⟨hk, hlast⟩
    by_contra hlt
    obtain ⟨i, rfl⟩ := Nat.exists_eq_add_of_le' hk
    have hend := (hfinal i (by omega)).1 hlast
    omega

theorem length_le (h : s.Tries policy attempt ends) :
    attempt + ends.length ≤ max policy.maxAttempts attempt + 1 := by
  induction h with
  | last => simp
  | again h _ ih =>
    have hlt := lt_of_not_final h
    simp only [List.length_cons]
    omega

end Tries

end Step

/-- What there is to see of attempts that end like this, from this number on: each call, and between
two of them the retry and the wait. -/
def RetryPolicy.tale (policy : RetryPolicy) : Nat → List CallEnd → List (Sight Unit)
  | _, [] => []
  | _, [e] => [.called e]
  | attempt, e :: e' :: ends =>
    .called e :: .acted () :: .rested (policy.delayFor attempt) :: policy.tale (attempt + 1) (e' :: ends)

theorem RetryPolicy.tale_cons (policy : RetryPolicy) (attempt : Nat) (e : CallEnd)
    {ends : List CallEnd} (h : ends ≠ []) : policy.tale attempt (e :: ends) =
      .called e :: .acted () :: .rested (policy.delayFor attempt) :: policy.tale (attempt + 1) ends := by
  cases ends with
  | nil => exact absurd rfl h
  | cons => rfl

namespace RetryPolicy

variable (policy : RetryPolicy) (attempt : Nat) (ends : List CallEnd)

@[simp]
theorem filterMap_call?_tale : (policy.tale attempt ends).filterMap Sight.call? = ends := by
  fun_induction tale policy attempt ends with
  | case1 | case2 => rfl
  | case3 attempt e e' ends ih => simp only [List.filterMap_cons, Sight.call?, ih]

@[simp]
theorem length_filterMap_act?_tale :
    ((policy.tale attempt ends).filterMap Sight.act?).length = ends.length - 1 := by
  fun_induction tale policy attempt ends with
  | case1 | case2 => rfl
  | case3 attempt e e' ends ih =>
    simp only [List.filterMap_cons, Sight.act?, List.length_cons, ih, Nat.add_sub_cancel]

/-- The waits are those after all attempts but the last. -/
theorem filterMap_rest?_tale : (policy.tale attempt ends).filterMap Sight.rest? =
    (List.range (ends.length - 1)).map fun i => policy.delayFor (attempt + i) := by
  fun_induction tale policy attempt ends with
  | case1 | case2 => rfl
  | case3 attempt e e' ends ih =>
    simp only [List.filterMap_cons, Sight.rest?, ih, List.length_cons, Nat.add_sub_cancel]
    rw [List.range_succ_eq_map]
    simp [Function.comp_def, Nat.add_assoc, Nat.add_comm 1]

end RetryPolicy

namespace Environment

/-- The retries that are counted can be seen. -/
def retrying (s t : Board C H X × ω) : List (Sight Unit) :=
  List.replicate (t.1.ledger.metrics.retries - s.1.ledger.metrics.retries) (.acted ())

variable {env : Environment C H X ω} {drift : Board C H X × ω → Board C H X × ω → Prop}

theorem retrying_of_eq {s t : Board C H X × ω}
    (h : t.1.ledger.metrics.retries = s.1.ledger.metrics.retries) : retrying s t = [] := by
  rw [retrying, h, Nat.sub_self, List.replicate_zero]

theorem isCancelled_tells :
    env.isCancelled.Tells drift retrying Report.Stopped fun _ l => l = [] :=
  .read _ fun _ => retrying_of_eq rfl

theorem now_tells : env.now.Tells drift retrying Report.Stopped fun _ l => l = [] :=
  .read _ fun _ => retrying_of_eq rfl

theorem announcing_tells {what : Happening} : (env.announcing what).Tells drift retrying
    Report.Stopped fun _ l => l = [] :=
  .modify fun _ => retrying_of_eq rfl

theorem stop_tells {V : α → List (Sight Unit) → Prop} :
    (stop : Part C H X ω α).Tells drift retrying Report.Stopped V := .halt rfl

theorem resting_tells (d : Nanos) : (resting d : Part C H X ω Unit).Tells drift retrying
    Report.Stopped fun _ l => l = [.rested d] := by
  refine (Piece.Tells.pause d).bind fun cancelled l hl => ?_
  subst hl
  cases cancelled with
  | false => exact .pure rfl
  | true => exact stop_tells

/-- A call of the step has ended like this, and was not cancelled. -/
def Answered (env : Environment C H X ω) (drift : Board C H X × ω → Board C H X × ω → Prop)
    (s : Step C H) (e : CallEnd) : Prop :=
  e ≠ .cancelled ∧ ∃ x y, Work.Answers drift s.limit (env.onBoard s.execute, x) (e, y)

theorem attempt_tells (s : Step C H) : (env.attempt s).Tells drift retrying Report.Stopped fun r l =>
    ∃ e, env.Answered drift s e ∧ r = s.result e ∧ l = [.called e] := by
  refine (Piece.Tells.call s.limit (env.onBoard s.execute)).bind ?_
  rintro e l ⟨hanswers, rfl⟩
  have hcheck (r : StepResult) : (do
      if ← env.isCancelled then stop else pure r :
      Part C H X ω StepResult).Tells drift retrying Report.Stopped fun r' l => r' = r ∧ l = [] := by
    refine isCancelled_tells.bind fun cancelled l hl => ?_
    subst hl
    cases cancelled with
    | false => exact .pure ⟨rfl, rfl⟩
    | true => exact stop_tells
  cases e with
  | finished r =>
    refine (hcheck r).mono ?_
    rintro _ _ ⟨rfl, rfl⟩
    exact ⟨_, ⟨by simp, hanswers⟩, rfl, rfl⟩
  | crashed m =>
    refine (hcheck _).mono ?_
    rintro _ _ ⟨rfl, rfl⟩
    exact ⟨_, ⟨by simp, hanswers⟩, rfl, rfl⟩
  | timedOut => exact .pure ⟨_, ⟨by simp, hanswers⟩, rfl, rfl⟩
  | cancelled => exact stop_tells

theorem judge_tells (node : NodeId) (s : Step C H) (policy : RetryPolicy) (attempt : Nat)
    (r : StepResult) : (env.judge node s policy attempt r).Tells drift retrying Report.Stopped
      fun willRetry l => willRetry = s.mayRepeat policy attempt r.outcome ∧ l = [] := by
  unfold judge
  cases r.outcome with
  | success | suspended => exact .pure ⟨rfl, rfl⟩
  | failure error shouldRetry =>
    refine announcing_tells.bind fun _ l hl => ?_
    subst hl
    exact .pure ⟨rfl, rfl⟩

/-- The calls that are seen end with the first that is final. -/
theorem attempts_tells (node : NodeId) (s : Step C H) (policy : RetryPolicy) (spare : Nat)
    {attempt : Nat} (hall : policy.maxAttempts ≤ spare + attempt) :
    (env.attempts node s policy spare attempt).Tells drift retrying Report.Stopped fun r l =>
      ∃ ends, s.Tries policy attempt ends ∧ (∀ e ∈ ends, env.Answered drift s e) ∧
        l = policy.tale attempt ends ∧ r.2 + 1 = attempt + ends.length ∧
        ∃ e ∈ ends.getLast?, r.1 = s.result e := by
  have hlast {attempt : Nat} {e : CallEnd} (hanswered : env.Answered drift s e)
      (h : s.Final policy attempt e) : ∃ ends, s.Tries policy attempt ends ∧
        (∀ e ∈ ends, env.Answered drift s e) ∧ [.called e] = policy.tale attempt ends ∧
        attempt + 1 = attempt + ends.length ∧ ∃ e' ∈ ends.getLast?, s.result e = s.result e' :=
    ⟨[e], .last h, by simpa using hanswered, rfl, rfl, e, rfl, rfl⟩
  induction spare generalizing attempt with
  | zero =>
    refine (attempt_tells s).bind ?_
    rintro _ _ ⟨e, hanswered, rfl, rfl⟩
    refine (judge_tells node s policy attempt _).bind ?_
    rintro _ _ ⟨-, rfl⟩
    refine .pure (hlast hanswered ?_)
    by_contra h
    have hlt := Step.lt_of_not_final h
    omega
  | succ spare ih =>
    refine (attempt_tells s).bind ?_
    rintro _ _ ⟨e, hanswered, rfl, rfl⟩
    refine (judge_tells node s policy attempt _).bind ?_
    rintro _ _ ⟨rfl, rfl⟩
    cases hagain : s.mayRepeat policy attempt (s.result e).outcome with
    | false => exact .pure (hlast hanswered (Step.mayRepeat_eq_false_iff.1 hagain))
    | true =>
      refine (Piece.Tells.modify (g := [.acted ()]) fun s => ?_).bind fun _ l hl => ?_
      · simp [retrying]
      subst hl
      refine (resting_tells _).bind fun _ l hl => ?_
      subst hl
      have hmore : policy.maxAttempts ≤ spare + (attempt + 1) := by omega
      refine (ih hmore).mono ?_
      rintro r _ ⟨ends, htries, hall', rfl, hlength, e', he', hr⟩
      refine ⟨e :: ends, .again (fun h => ?_) htries, List.forall_mem_cons.2 ⟨hanswered, hall'⟩,
        (policy.tale_cons attempt e htries.ne_nil).symm, ?_, e', ?_, hr⟩
      · rw [Step.mayRepeat_eq_false_iff.2 h] at hagain
        cases hagain
      · rw [hlength, List.length_cons]
        omega
      · rw [List.getLast?_cons_of_ne_nil htries.ne_nil]
        exact he'

theorem trackContextSize_tells :
    env.trackContextSize.Tells drift retrying Report.Stopped fun _ l => l = [] := by
  unfold trackContextSize
  split
  · refine .modify fun s => ?_
    simp only
    split <;> exact retrying_of_eq rfl
  · exact .pure rfl

/-- The entry of a step, and where flow goes from it. -/
def Reported (s : Step C H) (node : NodeId) (next : Option NodeId) (outcome : StepOutcome)
    (attempts : Nat) (v : Visited) : Prop :=
  ∃ startedAt completedAt, v = ⟨[⟨s.name, node, startedAt, completedAt, outcome.toTrace, attempts⟩],
    s.turn node next attempts outcome⟩

theorem settle_tells (node : NodeId) (s : Step C H) (next : Option NodeId) (startedAt : Timestamp)
    (r : StepResult) (k : Nat) : (env.settle node s next startedAt r k).Tells drift retrying
      Report.Stopped fun v l => Reported s node next r.outcome k v ∧ l = [] := by
  refine now_tells.bind fun completedAt l hl => ?_
  subst hl
  cases r.outcome with
  | success =>
    refine .bind (.modify (g := []) fun s => retrying_of_eq rfl) fun _ l hl => ?_
    subst hl
    refine announcing_tells.bind fun _ l hl => ?_
    subst hl
    refine trackContextSize_tells.bind fun _ l hl => ?_
    subst hl
    exact .pure ⟨⟨startedAt, completedAt, rfl⟩, rfl⟩
  | failure error shouldRetry =>
    refine .bind (.modify (g := []) fun s => retrying_of_eq rfl) fun _ l hl => ?_
    subst hl
    exact .pure ⟨⟨startedAt, completedAt, rfl⟩, rfl⟩
  | suspended signal limit => exact .pure ⟨⟨startedAt, completedAt, rfl⟩, rfl⟩

/-! ### Nothing stops a step -/

theorem judge_opens (node : NodeId) (s : Step C H) (policy : RetryPolicy) (attempt : Nat)
    (r : StepResult) : (env.judge node s policy attempt r).Opens drift retrying := by
  unfold judge
  cases r.outcome with
  | success | suspended => exact .pure _
  | failure => exact .bind (.modify _) fun _ => .pure _

theorem settle_opens (node : NodeId) (s : Step C H) (next : Option NodeId) (startedAt : Timestamp)
    (r : StepResult) (n : Nat) : (env.settle node s next startedAt r n).Opens drift retrying := by
  refine .bind (.read _) fun completedAt => ?_
  cases r.outcome with
  | success =>
    refine .bind (.modify _) fun _ => .bind (.modify _) fun _ => .bind ?_ fun _ => .pure _
    unfold trackContextSize
    split
    · exact .modify _
    · exact .pure ()
  | failure => exact .bind (.modify _) fun _ => .pure _
  | suspended => exact .pure _

section

variable (hcalm : ∀ w, env.cancelled w = false)

include hcalm

theorem attempt_opens (s : Step C H) : (env.attempt s).Opens drift retrying := by
  intro x
  obtain ⟨e, y, hend⟩ := Work.exists_end drift (env.onBoard s.execute) x
  have hcheck : (env.isCancelled : Part C H X ω Bool).Passes drift retrying y _ _ y :=
    .update (fun y => (env.cancelled y.2, y)) y
  simp only [hcalm] at hcheck
  have hcall : (Piece.call s.limit (env.onBoard s.execute) : Part C H X ω CallEnd).Passes drift
      retrying x _ _ y := .call (.ended hend)
  cases e with
  | done r => exact ⟨_, r, y, hcall.bind (hcheck.bind (.pure r))⟩
  | crash m => exact ⟨_, _, y, hcall.bind (hcheck.bind (.pure _))⟩

theorem attempts_opens (node : NodeId) (s : Step C H) (policy : RetryPolicy) (spare attempt : Nat) :
    (env.attempts node s policy spare attempt).Opens drift retrying := by
  induction spare generalizing attempt with
  | zero =>
    exact (attempt_opens hcalm s).bind fun r => (judge_opens node s policy attempt r).bind
      fun _ => .pure _
  | succ spare ih =>
    refine (attempt_opens hcalm s).bind fun r => (judge_opens node s policy attempt r).bind
      fun again => ?_
    cases again with
    | false => exact .pure _
    | true =>
      refine .bind (.modify _) fun _ => .bind (fun x => ?_) fun _ => ih (attempt + 1)
      exact ⟨_, (), x, (Piece.Passes.pause _ x).bind (.pure ())⟩

theorem runStep_opens (node : NodeId) (s : Step C H) (next : Option NodeId) :
    (env.runStep node s next).Opens drift retrying :=
  .bind (.read _) fun _ => (attempts_opens hcalm node s _ _ 1).bind fun r =>
    settle_opens node s next _ r.1 r.2

end

/-! ### The whole step -/

/-- The policy by which the step is tried. -/
def policy (env : Environment C H X ω) (s : Step C H) : RetryPolicy :=
  s.retryPolicy.getD env.options.retry

/-- The calls of a step have ended like this, one after the other; this was seen of it, and this is
what came of it. -/
structure Tried (env : Environment C H X ω) (drift : Board C H X × ω → Board C H X × ω → Prop)
    (node : NodeId) (s : Step C H) (next : Option NodeId) (ends : List CallEnd)
    (l : List (Sight Unit)) (v : Visited) : Prop where
  answered : ∀ e ∈ ends, env.Answered drift s e
  calls : l.filterMap Sight.call? = ends
  /-- However the calls would have gone on, the last attempt is the first that is final. -/
  least : ∀ e : Nat → CallEnd, (∀ (i : Nat) (hi : i < ends.length), ends[i] = e (i + 1)) →
    IsLeast {k | 1 ≤ k ∧ s.Final (env.policy s) k (e k)} ends.length
  length_le : ends.length ≤ max (env.policy s).maxAttempts 1
  /-- So a counter of 32 bits has room for the attempts if it has for their limit. -/
  counted : (env.policy s).maxAttempts < 2 ^ 32 → ends.length < 2 ^ 32
  retries : (l.filterMap Sight.act?).length = ends.length - 1
  rests : l.filterMap Sight.rest? =
    (List.range (ends.length - 1)).map fun i => (env.policy s).delayFor (i + 1)
  /-- All that was seen, in its order. -/
  seen : l = (env.policy s).tale 1 ends
  reported : ∃ e ∈ ends.getLast?, Reported s node next (s.result e).outcome ends.length v

theorem runStep_tells (node : NodeId) (s : Step C H) (next : Option NodeId) :
    (env.runStep node s next).Tells drift retrying Report.Stopped fun v l =>
      ∃ ends, env.Tried drift node s next ends l v := by
  refine now_tells.bind fun startedAt l hl => ?_
  subst hl
  have hall : (env.policy s).maxAttempts ≤ (env.policy s).maxAttempts - 1 + 1 := by omega
  refine (attempts_tells node s (env.policy s) _ hall).bind ?_
  rintro ⟨r, last⟩ _ ⟨ends, htries, hanswered, rfl, hlast, e, he, hr⟩
  have hlength : last = ends.length := by
    simp only at hlast
    omega
  refine (settle_tells node s next startedAt r last).mono ?_
  rintro v _ ⟨hreported, rfl⟩
  rw [hlength, show r = s.result e from hr] at hreported
  have hle : ends.length ≤ max (env.policy s).maxAttempts 1 := by
    have hle := htries.length_le
    omega
  refine ⟨ends, hanswered, by simp, fun e he => htries.isLeast he, hle, fun hlt => by omega,
    by simp, ?_, by simp, e, he, hreported⟩
  simp [RetryPolicy.filterMap_rest?_tale, Nat.add_comm]

/-- Nobody cancels: a step is called until an attempt is final, and no more often than its policy
allows; each time before it is called again one retry is counted, and the wait that the policy has for
the attempt passes. What comes of it tells of the last attempt, with its number. And it does come to
this, wherever it is begun. -/
theorem runStep_tries (node : NodeId) (s : Step C H) (next : Option NodeId)
    (k : Visited → Walk (Board C H X × ω) Report) (x : Board C H X × ω) :
    (∀ l r y, Walk.Way drift retrying (env.runStep node s next k, x) l (.done r, y) → ¬r.Stopped →
      ∃ ends v l₁ l₂ z, l = l₁ ++ l₂ ∧ env.Tried drift node s next ends l₁ v ∧
        Walk.Way drift retrying (k v, z) l₂ (.done r, y)) ∧
      ((∀ w, env.cancelled w = false) →
        ∃ l v y, Walk.Way drift retrying (env.runStep node s next k, x) l (k v, y)) := by
  refine ⟨fun l r y hway hcalm => ?_, fun hcalm => ?_⟩
  · obtain hstopped | ⟨v, z, l₁, l₂, hl, ⟨ends, htried⟩, hrest⟩ :=
      runStep_tells node s next k x l r y hway
    · exact absurd hstopped hcalm
    · exact ⟨ends, v, l₁, l₂, z, hl, htried, hrest⟩
  · obtain ⟨l, v, y, hpasses⟩ := runStep_opens hcalm node s next x
    exact ⟨l, v, y, hpasses k⟩

/-- A walk that calls once more when the line is busy. -/
def calling : Walk (Board Nat Unit Unit × Unit) Report :=
  quietly.runStep 1 call none fun v => .done ⟨v.trace, .drained⟩

theorem runStep_tries_call : ∃ l r y,
    Walk.Way (fun _ _ => True) retrying (calling, { context := 0, extra := () }, ()) l (.done r, y) ∧
      ¬r.Stopped ∧ (∃ ends v, quietly.Tried (fun _ _ => True) 1 call none ends l v ∧
        ends.length = 2 ∧ l.filterMap Sight.rest? = [Nanos.ofMillis 200]) ∧
      (∀ w, quietly.cancelled w = false) ∧
      ∃ l y, ∃ v : Visited, Walk.Way (fun _ _ => True) retrying
        (calling, { context := 0, extra := () }, ()) l (.done ⟨v.trace, .drained⟩, y) := by
  have hend : (calling.inOrder (({ context := 0, extra := () }, ()), [])).map
      (fun x => (x.1.halt, x.1.trace.map (·.attempts))) = some (.drained, [2]) := by decide +kernel
  obtain ⟨⟨r, ⟨y, calls⟩⟩, hrun, hleft⟩ := Option.map_eq_some_iff.1 hend
  obtain ⟨hhalt, hattempts⟩ := Prod.mk.inj hleft
  have hmoves : Moves (fun _ _ => True) Walk.Step (calling, { context := 0, extra := () }, ())
      (.done r, y) := (calling.steps_of_inOrder hrun).lift id fun _ _ => .inl
  obtain ⟨l, hway⟩ := hmoves.exists_way retrying
  have hcalm : ¬r.Stopped := by
    intro hstopped
    rw [show r.halt = .cancelled from beq_iff_eq.1 hstopped] at hhalt
    cases hhalt
  obtain ⟨ends, v, l, l', z, rfl, htried, hrest⟩ := (runStep_tries 1 call none _ _).1 l r y hway hcalm
  obtain ⟨rfl, rfl, -⟩ := hrest.of_done
  rw [List.append_nil] at hway
  have hlength : ends.length = 2 := by
    obtain ⟨e, -, startedAt, completedAt, rfl⟩ := htried.reported
    simpa using hattempts
  have hrests := htried.rests
  rw [hlength] at hrests
  have hdelay : (quietly.policy call).delayFor 1 = Nanos.ofMillis 200 := by decide +kernel
  have hnever : ∀ w, quietly.cancelled w = false := fun _ => rfl
  obtain ⟨l', v', y', hopens⟩ := (runStep_tries 1 call none _ _).2 hnever
  exact ⟨l, _, y, hway, hcalm, ⟨ends, v, htried, hlength, by simpa [hdelay] using hrests⟩, hnever, l',
    y', v', hopens⟩

end Environment

end DurableWorkflow

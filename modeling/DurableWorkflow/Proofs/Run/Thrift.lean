import DurableWorkflow.Proofs.Graph.Flow
import DurableWorkflow.Proofs.Recovery.Life
import DurableWorkflow.Proofs.Walk.Follow

/-!
# Visits that suffice

A run comes to no node twice, nor do its branches. So as many visits as the graph has nodes are
enough: where they are admitted and nobody cancels, no visit is refused and no walk is stopped
(`traverse_thrifty`). A visit is what such a run spends.
-/

namespace DurableWorkflow

variable {C H X ω : Type}

/-- Nobody cancels. -/
structure Environment.Unhindered (env : Environment C H X ω) (o : RunOptions) : Prop where
  options : env.options = o
  cancelled : ∀ w, env.cancelled w = false

/-- A run spends visits. -/
abbrev visitBudget (C H X ω : Type) (o : RunOptions) : Budget (Board C H X × ω) Report :=
  (Board.likeness C H X ω o).budget (fun s => s.1.visits) o.maxNodeVisits

/-- From the node flow goes on only as it may, and if the node waits it is a step, whose entry says
so. -/
structure Visited.Fits (g : Graph C H) (x : Nat) (v : Visited) : Prop where
  onward : ∀ nodes, v.turn = .onward nodes → ∃ n, g.get? x = some n ∧ n.Onward nodes
  suspended : ∀ signal limit, v.turn = .suspended signal limit → ∃ n s t, g.get? x = some n ∧
    n.kind = .step s ∧ v.trace = [t] ∧ t.step = s.name ∧ t.node = x ∧ t.outcome = .suspended signal

/-- A failure that a step or a choice reports is no refusal. -/
theorem Failure.not_isRefusal {o : RunOptions} {f : Failure}
    (h : f.attempts ≠ 0 ∨ f.step ≠ some "engine") : ¬f.IsRefusal o := by
  rintro ⟨node, rfl⟩
  simp [ofEngine] at h

/-- The nodes that are ahead of a run, the next one first. -/
def StartPoint.ahead (root : NodeId) : StartPoint → List NodeId
  | .root => [root]
  | .frontier nodes => nodes.reverse
  | .signal node pending _ => node :: pending.reverse

namespace Environment

variable {env : Environment C H X ω} {o : RunOptions} {g : Graph C H} {x : NodeId} {n : Node C H}
  {s : Step C H} {l m : Nat} {branch : NodeId → Walk (Board C H X × ω) Report}

/-! ### What costs nothing -/

theorem onBoard_free (env : Environment C H X ω) (o : RunOptions) (work : Work (C × H) StepResult) :
    (env.onBoard work).Keeps fun s t => (visitBudget C H X ω o).spent t =
      (visitBudget C H X ω o).spent s :=
  onBoard_keeps (fun _ _ _ _ => rfl) work

theorem isCancelled_free (henv : env.Unhindered o) :
    env.isCancelled.Free (visitBudget C H X ω o) (· = false) :=
  .read fun s => henv.cancelled s.2

theorem announcing_free (env : Environment C H X ω) (o : RunOptions) (what : Happening) :
    (env.announcing what).Free (visitBudget C H X ω o) fun _ => True :=
  .modify fun _ => rfl

theorem counting_free (f : Metrics → Metrics) :
    (counting f : Part C H X ω Unit).Free (visitBudget C H X ω o) fun _ => True :=
  .modify fun _ => rfl

theorem resting_free (d : Nanos) :
    (resting d : Part C H X ω Unit).Free (visitBudget C H X ω o) fun _ => True :=
  (Piece.Free.pause d).bind fun b hb => by
    subst hb
    exact .pure trivial

theorem attempt_free (henv : env.Unhindered o) (s : Step C H) :
    (env.attempt s).Free (visitBudget C H X ω o) fun _ => True := by
  refine (Piece.Free.call s.limit (onBoard_free env o s.execute)).bind fun ending hending => ?_
  have hcheck (r : StepResult) : (do
      if ← env.isCancelled then stop else pure r : Part C H X ω StepResult).Free
        (visitBudget C H X ω o) fun _ => True :=
    (isCancelled_free henv).bind fun b hb => by
      subst hb
      exact .pure trivial
  cases ending with
  | timedOut => exact .pure trivial
  | cancelled => exact hending.elim
  | finished r => exact hcheck r
  | crashed m => exact hcheck _

theorem judge_free (env : Environment C H X ω) (o : RunOptions) (node : NodeId) (s : Step C H)
    (policy : RetryPolicy) (attempt : Nat) (r : StepResult) :
    (env.judge node s policy attempt r).Free (visitBudget C H X ω o) fun _ => True := by
  unfold judge
  cases r.outcome with
  | success | suspended => exact .pure trivial
  | failure => exact (announcing_free env o _).bind fun _ _ => .pure trivial

theorem attempts_free (henv : env.Unhindered o) (node : NodeId) (s : Step C H) (policy : RetryPolicy)
    (spare : Nat) {attempt : Nat} (hattempt : attempt ≠ 0) :
    (env.attempts node s policy spare attempt).Free (visitBudget C H X ω o) (·.2 ≠ 0) := by
  induction spare generalizing attempt with
  | zero =>
    exact (attempt_free henv s).bind fun r _ => (judge_free env o node s policy attempt r).bind
      fun _ _ => .pure hattempt
  | succ spare ih =>
    refine (attempt_free henv s).bind fun r _ => (judge_free env o node s policy attempt r).bind
      fun b _ => ?_
    cases b
    · exact .pure hattempt
    · exact (counting_free _).bind fun _ _ => (resting_free _).bind fun _ _ =>
        ih (Nat.succ_ne_zero attempt)

theorem trackContextSize_free (env : Environment C H X ω) (o : RunOptions) :
    env.trackContextSize.Free (visitBudget C H X ω o) fun _ => True := by
  unfold trackContextSize
  split
  · refine .modify fun s => ?_
    simp only
    split <;> rfl
  · exact .pure trivial

theorem settle_free (env : Environment C H X ω) (o : RunOptions) (node : NodeId) (s : Step C H)
    (next : Option NodeId) (startedAt : Timestamp) (r : StepResult) {k : Nat} (hk : k ≠ 0) :
    (env.settle node s next startedAt r k).Free (visitBudget C H X ω o) (¬·.Refused o) := by
  refine .bind (V := fun _ => True) (.read fun _ => trivial) fun completedAt _ => ?_
  cases r.outcome with
  | success =>
    refine .bind (V := fun _ => True) (.modify fun _ => rfl) fun _ _ =>
      (announcing_free env o _).bind fun _ _ => (trackContextSize_free env o).bind fun _ _ =>
        .pure (Visited.not_refused (by simp))
  | failure error =>
    refine (counting_free _).bind fun _ _ => .pure ?_
    rintro ⟨f, hf, hrefusal⟩
    cases hf
    exact Failure.not_isRefusal (.inl hk) hrefusal
  | suspended signal limit => exact .pure (Visited.not_refused (by simp))

theorem runStep_free (henv : env.Unhindered o) (node : NodeId) (s : Step C H)
    (next : Option NodeId) :
    (env.runStep node s next).Free (visitBudget C H X ω o) (¬·.Refused o) :=
  .bind (V := fun _ => True) (.read fun _ => trivial) fun startedAt _ =>
    (attempts_free henv node s _ _ Nat.one_ne_zero).bind fun y hy =>
      settle_free env o node s next startedAt y.1 hy

theorem onward_free (C H X ω : Type) (o : RunOptions) (nodes : List NodeId) :
    (pure (.onward nodes) : Part C H X ω Visited).Free (visitBudget C H X ω o) (¬·.Refused o) :=
  .pure (Visited.not_refused (by simp [Visited.onward]))

theorem choose_free (node : NodeId) (holds : Predicate C) (t e next : Option NodeId) :
    (choose node holds t e next : Part C H X ω Visited).Free (visitBudget C H X ω o)
      (¬·.Refused o) := by
  refine .bind (V := fun _ => True) (.read fun _ => trivial) fun verdict _ => ?_
  cases verdict with
  | ok b => exact onward_free C H X ω o _
  | error m =>
    refine .pure ?_
    rintro ⟨f, hf, hrefusal⟩
    cases hf
    exact Failure.not_isRefusal (.inr (by simp [Failure.ofEngine])) hrefusal

theorem deliver_free (env : Environment C H X ω) (o : RunOptions) (hx : x < g.size) (signal : Signal) :
    (env.deliver g x signal).Free (visitBudget C H X ω o) (¬·.Refused o) := by
  unfold deliver
  obtain ⟨n, hn⟩ := Graph.exists_of_lt hx
  simp only [hn]
  split
  · next hnone =>
    refine .pure ?_
    rintro ⟨f, hf, hrefusal⟩
    cases hf
    refine Failure.not_isRefusal (.inr ?_) hrefusal
    obtain ⟨kind, next⟩ := n
    cases kind <;> simp_all [Node.step?, Failure.ofEngine, NodeKind.label, NodeKind.name]
  · next s hs =>
    refine .bind (V := fun _ => True) (.read fun _ => trivial) fun startedAt _ =>
      (Piece.Free.call none (onBoard_free env o _)).bind fun ending hending => ?_
    cases ending with
    | finished r => exact settle_free env o x s _ startedAt r Nat.one_ne_zero
    | crashed m => exact settle_free env o x s _ startedAt _ Nat.one_ne_zero
    | timedOut => simp [CallEnd.Open] at hending
    | cancelled => exact hending.elim

/-! ### Where flow goes on -/

theorem engineFailure_not_refused (node : NodeId) :
    ¬(Visited.engineFailure "" node "").Refused o := by
  rintro ⟨f, hf, hrefusal⟩
  cases hf
  exact Failure.not_isRefusal (.inr (by simp [Failure.ofEngine])) hrefusal

theorem engineFailure_fits (label : String) (message : String) :
    (Visited.engineFailure label x message).Fits g x :=
  ⟨by simp [Visited.engineFailure], by simp [Visited.engineFailure]⟩

theorem onward_fits (hn : g.get? x = some n) {nodes : List NodeId} (h : n.Onward nodes) :
    (Visited.onward nodes).Fits g x := by
  refine ⟨fun nodes' hnodes => ?_, by simp [Visited.onward]⟩
  cases hnodes
  exact ⟨n, hn, h⟩

theorem settle_hands (hn : g.get? x = some n) (hkind : n.kind = .step s) (startedAt : Timestamp)
    (r : StepResult) (k : Nat) :
    (env.settle x s n.next startedAt r k).Hands (Visited.Fits g x) := by
  refine .after fun completedAt => ?_
  cases r.outcome with
  | success =>
    refine .after fun _ => .after fun _ => .after fun _ => .pure ⟨fun nodes hnodes => ?_, by simp⟩
    cases hnodes
    exact ⟨n, hn, by simp only [Node.Onward, hkind]⟩
  | failure => exact .after fun _ => .pure ⟨by simp, by simp⟩
  | suspended =>
    refine .pure ⟨by simp, fun signal limit hturn => ?_⟩
    cases hturn
    exact ⟨n, s, _, hn, hkind, rfl, rfl, rfl, rfl⟩

theorem enter_hands (hn : g.get? x = some n) :
    (env.enter branch x n).Hands (Visited.Fits g x) := by
  unfold enter
  cases hkind : n.kind with
  | step s => exact .after fun _ => .after fun y => settle_hands hn hkind _ y.1 y.2
  | sequence children => exact .pure (onward_fits hn (by simp only [Node.Onward, hkind]))
  | conditional holds t e =>
    refine .after fun verdict => ?_
    cases verdict with
    | error m => exact .pure (engineFailure_fits _ _)
    | ok b =>
      refine .pure (onward_fits hn ?_)
      simp only [Node.Onward, hkind]
      cases b
      · exact .inr rfl
      · exact .inl rfl
  | parallel children =>
    refine .after fun reports => .after fun cancelled => ?_
    split
    · exact .halt _
    · refine .pure ⟨fun nodes hnodes => ⟨n, hn, ?_⟩, fun signal limit hturn => ?_⟩
      · simp only [join] at hnodes
        split at hnodes
        · simp at hnodes
        · cases hnodes
          simp only [Node.Onward, hkind]
      · simp only [join] at hturn
        split at hturn <;> simp at hturn
  | delay d => exact .after fun _ => .pure (onward_fits hn (by simp only [Node.Onward, hkind]))

theorem visit_hands (env : Environment C H X ω) (g : Graph C H)
    (branch : NodeId → Walk (Board C H X × ω) Report) (x : NodeId) :
    (env.visit g branch x).Hands (Visited.Fits g x) := by
  refine .after fun admission => ?_
  cases admission with
  | cancelled => exact .halt _
  | refused => exact .pure (engineFailure_fits _ _)
  | admitted =>
    simp only
    split
    · exact .pure (engineFailure_fits _ _)
    · next hn => exact enter_hands hn

theorem deliver_hands (env : Environment C H X ω) (g : Graph C H) (x : NodeId) (signal : Signal) :
    (env.deliver g x signal).Hands (Visited.Fits g x) := by
  unfold deliver
  split
  · exact .pure (engineFailure_fits _ _)
  · next n hn =>
    split
    · exact .pure (engineFailure_fits _ _)
    · next s hs =>
      have hkind := Node.kind_of_step hs
      refine .after fun startedAt => .after fun ending => ?_
      cases ending with
      | finished r => exact settle_hands hn hkind startedAt r 1
      | crashed m => exact settle_hands hn hkind startedAt _ 1
      | timedOut | cancelled => exact .halt _

theorem handle_hands (env : Environment C H X ω) (g : Graph C H) (fuel : Nat) (x : NodeId)
    (signal : Option Signal) : (env.handle g fuel x signal).Hands (Visited.Fits g x) := by
  cases signal with
  | none => exact visit_hands env g _ x
  | some signal => exact deliver_hands env g x signal

/-- A walk that begins with a node and comes to a report goes on from what the node has come to. -/
theorem handle_splits {drift : Board C H X × ω → Board C H X × ω → Prop}
    {T : Schedule (Board C H X × ω) Report} {fuel : Nat} {x : NodeId} {signal : Option Signal}
    {k : Visited → Walk (Board C H X × ω) Report} {s t : Board C H X × ω} {r : Report}
    (h : Walk.Goes drift T (Report.Fair o) (env.handle g fuel x signal k, s) (some r, t)) :
    ∃ v u, v.Fits g x ∧ (env.handle g fuel x signal).Reaches drift T (Report.Fair o) s v u ∧
      Walk.Goes drift T (Report.Fair o) (k v, u) (some r, t) := by
  have hspans : Spans drift fun _ _ => True :=
    ⟨fun _ => trivial, fun _ _ => trivial, fun _ => trivial⟩
  have haround : env.Around g fun _ _ => True := ⟨env.about_true g, fun _ _ _ _ => trivial⟩
  have hstopped : ¬Report.Fair o { halt := .cancelled } := fun hfair => hfair.1 rfl
  obtain ⟨v, u, hfits, -, hreaches, hend⟩ := (env.handle_hands g fuel x signal).splits
    (env.handle_keeps haround fuel x signal) hspans (fun _ hr => hr.not_fair) hstopped h
  exact ⟨v, u, hfits, hreaches, hend⟩

/-! ### What is visited -/

theorem allThrifty_of_apart {cs : List Nat} {lo hi : Nat} (h : g.Apart cs lo hi)
    (hbranch : ∀ c mid : Nat, lo ≤ c → mid ≤ hi → g.Apart [c] c mid →
      (branch c).Thrifty (visitBudget C H X ω o) (fun r _ => r.Fair o) (mid - c)) :
    allThrifty (visitBudget C H X ω o) (cs.map branch) (hi - lo) := by
  induction cs generalizing lo with
  | nil => trivial
  | cons c cs ih =>
    obtain ⟨mid, hlo, hmid, hinside, hrest⟩ := h
    have hle := hrest.le
    refine ⟨mid - c, hi - mid, by omega, hbranch c mid hlo hle ?_, ih hrest fun d m hd => ?_⟩
    · exact ⟨mid, Nat.le_refl _, hmid, hinside, Nat.le_refl _⟩
    · exact hbranch d m (by omega)

/-- The branches of a block take their share, and leave what follows the rest. -/
theorem runParallel_spends (henv : env.Unhindered o) {children : List NodeId} {k m l : Nat}
    (hkm : k + m ≤ l) (h : allThrifty (visitBudget C H X ω o) (children.map branch) k)
    (next : Option NodeId) :
    (env.runParallel branch children next).Spends (visitBudget C H X ω o) l m (¬·.Refused o) := by
  intro F cont hcont
  refine ⟨k, m, hkm, h, fun reports hreports => ?_⟩
  refine isCancelled_free henv m F _ fun b hb => ?_
  have hnone : (b || reports.any Report.isCancelled) = false := by
    rw [hb, Bool.false_or, List.any_eq_false]
    intro r hr hcancelled
    exact (hreports r hr).1 (beq_iff_eq.1 hcancelled)
  simp only [hnone, Bool.false_eq_true, if_false]
  refine hcont _ ?_
  rintro ⟨f, hf, hrefusal⟩
  simp only [join] at hf
  split at hf
  · next hsome =>
    cases hf
    obtain ⟨r, hr, hfailure⟩ := List.exists_of_findSome?_eq_some hsome
    refine (hreports r hr).2 f ?_ hrefusal
    unfold Report.failure? at hfailure
    split at hfailure
    · next heq => rw [heq, Option.some.inj hfailure]
    · simp at hfailure
  · simp at hf

theorem countVisit_spends (henv : env.Unhindered o) (h : m + 1 ≤ l) :
    (Piece.update env.countVisit : Part C H X ω Admission).Spends (visitBudget C H X ω o) l m
      (· = .admitted) := by
  refine .update fun s hs => ?_
  have hs : s.1.visits + l ≤ o.maxNodeVisits := hs
  have hadmitted : ¬s.1.visits + 1 > env.options.maxNodeVisits := by
    rw [henv.options]
    omega
  have hcount : env.countVisit s = (.admitted, { s.1 with visits := s.1.visits + 1 }, s.2) := by
    simp [countVisit, henv.cancelled, hadmitted]
  rw [hcount]
  exact ⟨show s.1.visits + 1 + m ≤ s.1.visits + l by omega, rfl⟩

theorem enter_spends (henv : env.Unhindered o) {x k : Nat} {n : Node C H} (hl : k + m ≤ l)
    (hbranch : ∀ children, n.kind = .parallel children →
      allThrifty (visitBudget C H X ω o) (children.map branch) k) :
    ∃ i ≤ l, (env.enter branch x n).Spends (visitBudget C H X ω o) i m (¬·.Refused o) := by
  unfold enter
  cases hkind : n.kind with
  | step s => exact ⟨m, by omega, runStep_free henv x s n.next m⟩
  | sequence children => exact ⟨m, by omega, onward_free C H X ω o _ m⟩
  | conditional holds t e => exact ⟨m, by omega, choose_free x holds t e n.next m⟩
  | parallel children =>
    exact ⟨l, Nat.le_refl l, runParallel_spends henv hl (hbranch children hkind) n.next⟩
  | delay d =>
    exact ⟨m, by omega, (resting_free d).bind (fun _ _ => onward_free C H X ω o _) m⟩

/-- A node takes one visit, and its branches what lies in their ranges. -/
theorem visit_spends (henv : env.Unhindered o) {x e m l : Nat} (hn : g.get? x = some n)
    (hl : m + (e - x) ≤ l) (hxe : x < e)
    (hbranch : ∀ children, n.kind = .parallel children →
      allThrifty (visitBudget C H X ω o) (children.map branch) (e - (x + 1))) :
    (env.visit g branch x).Spends (visitBudget C H X ω o) l m (¬·.Refused o) := by
  obtain ⟨i, hi, henter⟩ := enter_spends (x := x) henv
    (show e - (x + 1) + m ≤ e - (x + 1) + m from Nat.le_refl _) hbranch
  refine (countVisit_spends henv (show i + 1 ≤ l by omega)).bind fun admission hadmitted => ?_
  subst hadmitted
  simp only [hn]
  exact henter

/-! ### Stacks -/

variable {steady : Bool} {heads nodes : List Nat} {next : Option NodeId} {fuel first hi : Nat}

/-- The first node of a stack, and what follows with the stack that is then left. -/
theorem visit_thrifty (henv : env.Unhindered o) (htract : g.Tract steady heads 0 g.size next)
    {l : List Nat} {F : Report → Nat → Prop} {x m : Nat} (hstack : g.Apart (x :: l) first hi)
    (hhi : hi ≤ g.size) (hm : hi - first ≤ m)
    (hbranch : ∀ c mid : Nat, x < c → mid ≤ hi → g.Apart [c] c mid →
      (branch c).Thrifty (visitBudget C H X ω o) (fun r _ => r.Fair o) (mid - c))
    {k : Visited → Walk (Board C H X × ω) Report}
    (hk : ∀ e v, x < e → ¬v.Refused o →
      (∀ nodes, v.turn = .onward nodes → g.Apart (nodes ++ l) e hi) →
      (k v).Thrifty (visitBudget C H X ω o) F (hi - e)) :
    (env.visit g branch x k).Thrifty (visitBudget C H X ω o) F m := by
  have hx := hstack.mem (List.mem_cons_self ..)
  obtain ⟨n, hn⟩ : ∃ n, g.get? x = some n := Graph.exists_of_lt (by omega)
  obtain ⟨e, hxe, he, hchildren, honward⟩ := htract.onward hstack hn
  have hspends : (env.visit g branch x).Spends (visitBudget C H X ω o) m (hi - e) (¬·.Refused o) :=
    visit_spends (e := e) henv hn (by omega) hxe fun children hkind =>
      allThrifty_of_apart (hchildren children hkind) fun c mid hc hmid =>
        hbranch c mid hc (by omega)
  refine hspends.walk (visit_hands env g branch x) (engineFailure_not_refused x)
    (engineFailure_fits "" "") fun v hv hfits => hk e v hxe hv fun nodes hnodes => ?_
  obtain ⟨n', hn', hnodes⟩ := hfits.onward nodes hnodes
  rw [hn] at hn'
  cases hn'
  exact honward nodes hnodes

/-- The walk of a branch takes no more visits than there are nodes in its range. -/
theorem walkBranch_thrifty (henv : env.Unhindered o) (htract : g.Tract steady heads 0 g.size next)
    (hstack : g.Apart nodes first hi) (hhi : hi ≤ g.size) (hfuel : hi < first + fuel)
    (trace : List StepTrace) {m : Nat} (hm : hi - first ≤ m) :
    (env.walkBranch g fuel nodes trace).Thrifty (visitBudget C H X ω o) (fun r _ => r.Fair o) m := by
  -- The stack begins behind every node that has been passed, so it is empty before the fuel is.
  induction fuel generalizing nodes first hi trace m with
  | zero =>
    have := hstack.le
    omega
  | succ fuel ih =>
    cases nodes with
    | nil => exact ⟨by simp, by simp⟩
    | cons x l =>
      have hx := (hstack.mem (List.mem_cons_self ..)).1
      rw [walkBranch]
      refine visit_thrifty henv htract hstack hhi hm (fun c mid hc hmid hcstack =>
        ih hcstack (by omega) (by omega) [] (Nat.le_refl _)) fun e v hxe hv honward => ?_
      simp only
      cases hturn : v.turn with
      | onward next => exact ih (honward next hturn) hhi (by omega) _ (Nat.le_refl _)
      | failed f =>
        refine ⟨by simp, fun f' hf hrefusal => hv ⟨f', ?_, hrefusal⟩⟩
        rw [hturn, Halt.failed.inj hf]
      | suspended signal limit =>
        refine ⟨by simp, fun f hf => ?_⟩
        cases hf
        exact Failure.not_isRefusal (.inl (by simp [Graph.strandedFailure]))

theorem handle_thrifty (henv : env.Unhindered o) (htract : g.Tract steady heads 0 g.size next)
    {l : List NodeId} {F : Report → Nat → Prop} {x m : Nat} (fuel : Nat) (signal : Option Signal)
    (hstack : g.Apart (x :: l) first g.size) (hfuel : g.size ≤ first + fuel) (hm : g.size - first ≤ m)
    {k : Visited → Walk (Board C H X × ω) Report}
    (hk : ∀ e n v, x < e → g.size - e ≤ n → ¬v.Refused o →
      (∀ nodes, v.turn = .onward nodes → g.Apart (nodes ++ l) e g.size) →
      (k v).Thrifty (visitBudget C H X ω o) F n) :
    (env.handle g fuel x signal k).Thrifty (visitBudget C H X ω o) F m := by
  have hx := hstack.mem (List.mem_cons_self ..)
  cases signal with
  | none =>
    exact visit_thrifty henv htract hstack (Nat.le_refl _) hm (fun c mid hc hmid hcstack =>
      walkBranch_thrifty henv htract hcstack hmid (by omega) [] (Nat.le_refl _))
      fun e v hxe => hk e _ v hxe (Nat.le_refl _)
  | some signal =>
    obtain ⟨n, hn⟩ := Graph.exists_of_lt hx.2
    obtain ⟨e, hxe, he, -, honward⟩ := htract.onward hstack hn
    refine Piece.Spends.walk (deliver_free env o hx.2 signal m) (deliver_hands env g x signal)
      (engineFailure_not_refused x) (engineFailure_fits "" "") fun v hv hfits =>
        hk e m v hxe (by omega) hv fun nodes hnodes => ?_
    obtain ⟨n', hn', hnodes⟩ := hfits.onward nodes hnodes
    rw [hn] at hn'
    cases hn'
    exact honward nodes hnodes

theorem pass_thrifty {x : NodeId} {ahead : List NodeId} {v : Visited}
    {k : List NodeId → Walk (Board C H X × ω) Report} {m : Nat} (hv : ¬v.Refused o)
    (hk : ∀ nodes, v.turn = .onward nodes →
      (k (nodes ++ ahead)).Thrifty (visitBudget C H X ω o) (fun r _ => r.Fair o) m) :
    (env.pass x ahead v k).Thrifty (visitBudget C H X ω o) (fun r _ => r.Fair o) m := by
  refine fun s _ => ⟨m, Nat.le_refl _, ?_⟩
  cases hturn : v.turn with
  | onward nodes =>
    intro s _
    simp only
    cases env.save ⟨s.1.context, (nodes ++ ahead).reverse, v.trace⟩ (s.1.extra, s.2) with
    | ok => exact ⟨m, Nat.le_refl _, hk nodes hturn⟩
    | error => exact ⟨m, Nat.le_refl _, by simp, by simp⟩
  | failed f =>
    refine ⟨by simp, fun f' hf hrefusal => hv ⟨f', ?_, hrefusal⟩⟩
    rw [hturn, Halt.failed.inj hf]
  | suspended signal limit =>
    refine fun s _ => ⟨m, Nat.le_refl _, ?_⟩
    exact ⟨by simp, by simp⟩

/-- The main walk takes no more visits than there are nodes in front of it. -/
theorem walkMain_thrifty (henv : env.Unhindered o) (htract : g.Tract steady heads 0 g.size next)
    (hstack : g.Apart nodes first g.size) (hfuel : g.size < first + fuel) {m : Nat}
    (hm : g.size - first ≤ m) :
    (env.walkMain g fuel nodes).Thrifty (visitBudget C H X ω o) (fun r _ => r.Fair o) m := by
  induction fuel generalizing nodes first m with
  | zero =>
    have := hstack.le
    omega
  | succ fuel ih =>
    cases nodes with
    | nil => exact ⟨by simp, by simp⟩
    | cons x l =>
      have hx := (hstack.mem (List.mem_cons_self ..)).1
      refine handle_thrifty henv htract fuel none hstack (by omega) hm
        fun e n v hxe hn hv honward => ?_
      exact pass_thrifty hv fun nodes hnodes => ih (honward nodes hnodes) (by omega) hn

/-- Where so many visits are admitted, a run is thrifty from wherever it may begin. -/
theorem traverse_thrifty (henv : env.Unhindered o) {d : Definition C H} (horderly : d.Orderly)
    (hvisits : d.graph.size ≤ o.maxNodeVisits) {start : StartPoint}
    (hstack : d.graph.Apart (start.ahead d.root) first d.graph.size) :
    (env.traverse d start).Thrifty (visitBudget C H X ω o) (fun r _ => r.Fair o) d.graph.size := by
  have hle : d.graph.size < first + (env.options.maxNodeVisits + 1) := by
    rw [henv.options]
    omega
  cases start with
  | root | frontier nodes => exact walkMain_thrifty henv horderly hstack hle (by omega)
  | signal node pending signal =>
    have hfirst := (hstack.mem (List.mem_cons_self ..)).1
    refine handle_thrifty henv horderly d.graph.size (some signal) hstack (by omega) (by omega)
      fun e n v hxe hn hv honward => ?_
    exact pass_thrifty hv fun nodes hnodes => walkMain_thrifty henv horderly (honward nodes hnodes)
      (by omega) hn

end Environment

end DurableWorkflow

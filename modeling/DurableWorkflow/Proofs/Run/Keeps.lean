import DurableWorkflow.Proofs.Walk.Step
import DurableWorkflow.Run.Engine

/-!
# What the actions of a run do

An action of a walk announces something, works on the context and the memory of the steps, keeps the
books, or saves a checkpoint. Only a checkpoint touches the extra part of the board, what happens at
a node leaves the entries of the main walk alone, and the only steps that are entered as completed
are steps of the graph, each of which is counted. A visit ends the walk only where it is cancelled.
-/

namespace DurableWorkflow

variable {C H X ω : Type}

/-- A run announces this itself; the rest is announced of instances. -/
def Happening.isOfRun : Happening → Bool
  | .runStarted _ | .stepCompleted .. | .stepFailed .. | .runSuspended .. | .runCompleted ..
  | .runFailed .. => true
  | .runResumed _ | .runCancelled | .runTimedOut _ | .approvalRequested .. | .instanceFinished .. =>
    false

/-- A run announces this of a step. -/
def Happening.isOfStep : Happening → Bool
  | .stepCompleted .. | .stepFailed .. => true
  | _ => false

theorem Happening.isOfRun_of_isOfStep {what : Happening} (h : what.isOfStep = true) :
    what.isOfRun = true := by
  cases what <;> first | rfl | cases h

namespace Board

/-- The success of a step is entered into the books. -/
def enter (b : Board C H X) (node : NodeId) (s : Step C H) : Board C H X :=
  let completed := b.ledger.completed ++ if s.compensates then [(node, s)] else []
  let metrics := { b.ledger.metrics with executed := b.ledger.metrics.executed + 1 }
  { b with ledger := { b.ledger with completed, metrics } }

/-- The extra part, the entries of the main walk and the successes are the same. -/
structure Near (b b' : Board C H X) : Prop where
  extra : b'.extra = b.extra
  trace : b'.ledger.trace = b.ledger.trace
  completed : b'.ledger.completed = b.ledger.completed
  executed : b'.ledger.metrics.executed = b.ledger.metrics.executed

@[refl]
theorem Near.refl (b : Board C H X) : b.Near b := ⟨rfl, rfl, rfl, rfl⟩

end Board

/-- All that an action at a node of the graph can be, but for the work of its step, is an `I`. -/
structure Environment.AtNode (env : Environment C H X ω) (g : Graph C H)
    (I : Board C H X × ω → Board C H X × ω → Prop) : Prop where
  board : ∀ b b' w, b.Near b' → I (b, w) (b', w)
  enter : ∀ node s b w, (node, s) ∈ g.steps → I (b, w) (b.enter node s, w)
  announce : ∀ b what w, what.isOfStep = true → I (b, w) (b, env.announce what w)

/-- All that an action at a node of the graph can be is an `I`. -/
structure Environment.InVisit (env : Environment C H X ω) (g : Graph C H)
    (I : Board C H X × ω → Board C H X × ω → Prop) : Prop extends env.AtNode g I where
  memory : ∀ b c h w, I (b, w) ({ b with context := c }, env.setMemory h w)

/-- All that an action at a node of the graph can be, but for the work of its step, is an `I`, and so
is whatever else can be published of a run. -/
structure Environment.About (env : Environment C H X ω) (g : Graph C H)
    (I : Board C H X × ω → Board C H X × ω → Prop) : Prop where
  board : ∀ b b' w, b.Near b' → I (b, w) (b', w)
  enter : ∀ node s b w, (node, s) ∈ g.steps → I (b, w) (b.enter node s, w)
  publish : ∀ b e w, e.what.isOfRun = true → I (b, w) (b, env.publish e w)

/-- All that an action at a node of the graph can be is an `I`, and so is whatever else can be
published of a run. -/
structure Environment.Around (env : Environment C H X ω) (g : Graph C H)
    (I : Board C H X × ω → Board C H X × ω → Prop) : Prop extends env.About g I where
  memory : ∀ b c h w, I (b, w) ({ b with context := c }, env.setMemory h w)

/-- All that an action of a run can be is an `I`. -/
structure Environment.Within (env : Environment C H X ω) (g : Graph C H)
    (I : Board C H X × ω → Board C H X × ω → Prop) : Prop extends env.Around g I where
  note : ∀ b l w, I (b, w) ({ b with ledger.trace := b.ledger.trace ++ l }, w)
  save : ∀ c b w x w', env.save c (b.extra, w) = .ok (x, w') →
    I (b, w) ({ b with extra := x }, w')

/-- The report of a walk that was cancelled. -/
def Report.Stopped (r : Report) : Prop := r.isCancelled = true

variable {env : Environment C H X ω} {g : Graph C H} {I : Board C H X × ω → Board C H X × ω → Prop}

namespace Environment

theorem About.atNode (h : env.About g I) : env.AtNode g I :=
  ⟨h.board, h.enter, fun b _ w hwhat => h.publish b _ w (Happening.isOfRun_of_isOfStep hwhat)⟩

theorem Around.inVisit (h : env.Around g I) : env.InVisit g I := ⟨h.atNode, h.memory⟩

theorem onBoard_keeps (h : ∀ b c h w, I (b, w) ({ b with context := c }, env.setMemory h w))
    (work : Work (C × H) StepResult) : (env.onBoard work).Keeps I := by
  rw [onBoard]
  induction work with
  | done | crash => trivial
  | act f rest ih => exact fun s => ⟨h _ _ _ _, ih _⟩
  | sleep d rest ih => exact ih
  | awaitCancel rest ih => exact ih

theorem read_keeps {α : Type} (h : env.AtNode g I) (f : Board C H X × ω → α) :
    (Piece.read f : Part C H X ω α).Keeps Report.Stopped I :=
  .read f fun s => h.board s.1 s.1 s.2 (.refl s.1)

theorem announcing_keeps (h : env.AtNode g I) (what : Happening)
    (hwhat : what.isOfStep = true := by rfl) : (env.announcing what).Keeps Report.Stopped I :=
  .modify fun s => h.announce s.1 what s.2 hwhat

theorem counting_keeps (h : env.AtNode g I) {f : Metrics → Metrics}
    (hf : ∀ m, (f m).executed = m.executed) :
    (counting f : Part C H X ω Unit).Keeps Report.Stopped I :=
  .modify fun s => h.board s.1 _ s.2 ⟨rfl, rfl, rfl, hf _⟩

theorem stop_keeps {α : Type} : (stop : Part C H X ω α).Keeps Report.Stopped I := .halt rfl

theorem resting_keeps (d : Nanos) : (resting d : Part C H X ω Unit).Keeps Report.Stopped I := by
  refine (Piece.Keeps.pause d).bind fun cancelled => ?_
  cases cancelled
  · exact .pure ()
  · exact stop_keeps

theorem attempt_keeps (h : env.AtNode g I) {s : Step C H} (hs : (env.onBoard s.execute).Keeps I) :
    (env.attempt s).Keeps Report.Stopped I := by
  refine (Piece.Keeps.call s.limit hs).bind fun ending => ?_
  have hcheck (r : StepResult) : (do
      if ← env.isCancelled then stop else pure r :
      Part C H X ω StepResult).Keeps Report.Stopped I := by
    refine (read_keeps h _).bind fun cancelled => ?_
    cases cancelled
    · exact .pure r
    · exact stop_keeps
  cases ending with
  | timedOut => exact .pure _
  | cancelled => exact stop_keeps
  | finished r => exact hcheck r
  | crashed m => exact hcheck _

theorem judge_keeps (h : env.AtNode g I) (node : NodeId) (s : Step C H) (policy : RetryPolicy)
    (attempt : Nat) (r : StepResult) : (env.judge node s policy attempt r).Keeps Report.Stopped I := by
  unfold judge
  cases r.outcome with
  | success | suspended => exact .pure _
  | failure => exact (announcing_keeps h _).bind fun _ => .pure _

theorem attempts_keeps (h : env.AtNode g I) {s : Step C H} (hs : (env.onBoard s.execute).Keeps I)
    (node : NodeId) (policy : RetryPolicy) (spare attempt : Nat) :
    (env.attempts node s policy spare attempt).Keeps Report.Stopped I := by
  induction spare generalizing attempt with
  | zero =>
    exact (attempt_keeps h hs).bind fun r => (judge_keeps h node s policy attempt r).bind fun _ =>
      .pure _
  | succ spare ih =>
    refine (attempt_keeps h hs).bind fun r => (judge_keeps h node s policy attempt r).bind fun b => ?_
    cases b
    · exact .pure _
    · refine .bind (counting_keeps h ?_) fun _ => (resting_keeps _).bind fun _ => ih (attempt + 1)
      exact fun _ => rfl

theorem trackContextSize_keeps (h : env.AtNode g I) : env.trackContextSize.Keeps Report.Stopped I := by
  unfold trackContextSize
  split
  · refine .modify fun s => ?_
    simp only
    split
    · exact h.board s.1 s.1 s.2 (.refl s.1)
    · exact h.board s.1 _ s.2 ⟨rfl, rfl, rfl, rfl⟩
  · exact .pure ()

theorem settle_keeps (h : env.AtNode g I) {node : NodeId} {s : Step C H} (hs : (node, s) ∈ g.steps)
    (next : Option NodeId) (startedAt : Timestamp) (r : StepResult) (n : Nat) :
    (env.settle node s next startedAt r n).Keeps Report.Stopped I := by
  refine (read_keeps h _).bind fun completedAt => ?_
  cases r.outcome with
  | success =>
    refine .bind (.modify ?_) fun _ => (announcing_keeps h _).bind fun _ =>
      (trackContextSize_keeps h).bind fun _ => .pure _
    exact fun x => h.enter node s x.1 x.2 hs
  | failure =>
    refine .bind (counting_keeps h ?_) fun _ => .pure _
    exact fun _ => rfl
  | suspended => exact .pure _

theorem runStep_keeps (h : env.AtNode g I) {node : NodeId} {s : Step C H} (hs : (node, s) ∈ g.steps)
    (hwork : (env.onBoard s.execute).Keeps I) (next : Option NodeId) :
    (env.runStep node s next).Keeps Report.Stopped I :=
  (read_keeps h _).bind fun _ => (attempts_keeps h hwork node _ _ 1).bind fun x =>
    settle_keeps h hs next _ x.1 x.2

theorem choose_keeps (h : env.AtNode g I) (node : NodeId) (holds : Predicate C)
    (t e next : Option NodeId) :
    (choose node holds t e next : Part C H X ω Visited).Keeps Report.Stopped I := by
  refine (read_keeps h _).bind fun verdict => ?_
  cases verdict <;> exact .pure _

theorem runParallel_keeps (h : env.AtNode g I) {branch : NodeId → Walk (Board C H X × ω) Report}
    (hbranch : ∀ node, (branch node).Keeps I) (children : List NodeId) (next : Option NodeId) :
    (env.runParallel branch children next).Keeps Report.Stopped I := by
  refine (Piece.Keeps.fork fun w hw => ?_).bind fun reports => (read_keeps h _).bind fun b => ?_
  · obtain ⟨node, -, rfl⟩ := List.mem_map.1 hw
    exact hbranch node
  · split
    · exact stop_keeps
    · exact .pure _

theorem enter_keeps (h : env.InVisit g I) {branch : NodeId → Walk (Board C H X × ω) Report}
    (hbranch : ∀ node, (branch node).Keeps I) {node : NodeId} {n : Node C H}
    (hnode : g.get? node = some n) : (env.enter branch node n).Keeps Report.Stopped I := by
  unfold enter
  cases hkind : n.kind with
  | step s =>
    exact runStep_keeps h.toAtNode (Graph.mem_steps hnode (by rw [Node.step?, hkind]))
      (onBoard_keeps h.memory s.execute) n.next
  | sequence => exact .pure _
  | conditional holds t e => exact choose_keeps h.toAtNode node holds t e n.next
  | parallel children => exact runParallel_keeps h.toAtNode hbranch children n.next
  | delay d => exact (resting_keeps d).bind fun _ => .pure _

theorem visit_keeps (h : env.InVisit g I)
    {branch : NodeId → Walk (Board C H X × ω) Report} (hbranch : ∀ node, (branch node).Keeps I)
    (node : NodeId) : (env.visit g branch node).Keeps Report.Stopped I := by
  refine (Piece.Keeps.update fun s => ?_).bind fun admission => ?_
  · simp only [countVisit]
    split <;> exact h.board s.1 _ s.2 ⟨rfl, rfl, rfl, rfl⟩
  · cases admission with
    | cancelled => exact stop_keeps
    | refused => exact .pure _
    | admitted =>
      simp only
      split
      · exact .pure _
      · next hnode => exact enter_keeps h hbranch hnode

theorem deliver_keeps (h : env.InVisit g I) (node : NodeId) (signal : Signal) :
    (env.deliver g node signal).Keeps Report.Stopped I := by
  unfold deliver
  split
  · exact .pure _
  · next hnode =>
    split
    · exact .pure _
    · next hs =>
      refine (read_keeps h.toAtNode _).bind fun startedAt =>
        (Piece.Keeps.call none (onBoard_keeps h.memory _)).bind fun ending => ?_
      cases ending with
      | finished r => exact settle_keeps h.toAtNode (Graph.mem_steps hnode hs) _ startedAt r 1
      | crashed m => exact settle_keeps h.toAtNode (Graph.mem_steps hnode hs) _ startedAt _ 1
      | timedOut | cancelled => exact stop_keeps

theorem walkBranch_keeps (h : env.InVisit g I) (fuel : Nat) (nodes : List NodeId)
    (trace : List StepTrace) : (env.walkBranch g fuel nodes trace).Keeps I := by
  induction fuel generalizing nodes trace with
  | zero => cases nodes <;> exact trivial
  | succ fuel ih =>
    cases nodes with
    | nil => exact trivial
    | cons node ahead =>
      rw [walkBranch]
      refine (visit_keeps h (fun child => ih [child] []) node).walk fun v => ?_
      simp only
      split
      · exact ih _ _
      · exact trivial
      · exact trivial

theorem pass_keeps (h : env.Within g I) (node : NodeId) (ahead : List NodeId) (v : Visited)
    {next : List NodeId → Walk (Board C H X × ω) Report} (hnext : ∀ nodes, (next nodes).Keeps I) :
    (env.pass node ahead v next).Keeps I := by
  refine fun s => ⟨h.note _ _ _, ?_⟩
  split
  · refine fun s => ⟨?_, ?_⟩
    · simp only
      split
      · next heq => exact h.save _ _ _ _ _ heq
      · exact h.board s.1 s.1 s.2 (.refl s.1)
    · simp only
      split
      · exact hnext _
      · exact trivial
  · exact trivial
  · exact fun s => ⟨h.publish s.1 _ s.2 rfl, trivial⟩

theorem walkMain_keeps (h : env.Within g I) (fuel : Nat) (nodes : List NodeId) :
    (env.walkMain g fuel nodes).Keeps I := by
  induction fuel generalizing nodes with
  | zero => cases nodes <;> exact trivial
  | succ fuel ih =>
    cases nodes with
    | nil => exact trivial
    | cons node ahead =>
      rw [walkMain]
      exact (visit_keeps h.inVisit (fun child => walkBranch_keeps h.inVisit fuel [child] [])
        node).walk fun v => pass_keeps h node ahead v ih

theorem traverse_keeps {d : Definition C H} (h : env.Within d.graph I) (start : StartPoint) :
    (env.traverse d start).Keeps I := by
  cases start with
  | root => exact walkMain_keeps h _ _
  | frontier nodes => exact walkMain_keeps h _ _
  | signal node pending signal =>
    exact (deliver_keeps h.inVisit node signal).walk fun v =>
      pass_keeps h node _ v fun nodes => walkMain_keeps h _ nodes

end Environment

end DurableWorkflow

import DurableWorkflow.Proofs.Run.Keeps

/-!
# Which successes are entered into the books

On the way of a walk a success is entered into the books only where a call of the step has just
succeeded, and once for each success: between the end of the call and the entry the walk does
nothing but look at the world, unless it ends as cancelled (`Walk.Enters`). Every call of a walk is
one of a step of the graph, or of its answer to a signal, so that nothing is undone on the way.
-/

namespace DurableWorkflow

variable {C H X ω α β : Type}

namespace Board

/-- The books tell of the same successes. -/
structure Even (b b' : Board C H X) : Prop where
  completed : b'.ledger.completed = b.ledger.completed
  executed : b'.ledger.metrics.executed = b.ledger.metrics.executed

@[refl]
theorem Even.refl (b : Board C H X) : b.Even b := ⟨rfl, rfl⟩

end Board

def CallEnd.succeeded : CallEnd → Bool
  | .finished r => r.isSuccess
  | _ => false

/-- A call of this step, which is one of the graph. -/
structure Environment.Calls (env : Environment C H X ω) (g : Graph C H) (node : NodeId)
    (s : Step C H) (work : Work (Board C H X × ω) StepResult) : Prop where
  mem : (node, s) ∈ g.steps
  work : work = env.onBoard s.execute ∨ ∃ signal, work = env.onBoard (s.onSignal signal)

mutual

/-- Where a call has succeeded the success is entered next, and nowhere else is one entered. The
success that is to be entered next, if any, is `due`. -/
def Walk.Enters (env : Environment C H X ω) (g : Graph C H) (due : Option (NodeId × Step C H)) :
    Walk (Board C H X × ω) Report → Prop
  | .done r => due = none ∨ r.Stopped
  | .act f rest => ∀ s, s.1.Even (f s).1 ∧ (rest s).Enters env g due ∨
      ∃ node step, due = some (node, step) ∧ f s = (s.1.enter node step, s.2) ∧
        (rest s).Enters env g none
  | .pause _ rest => due = none ∧ ∀ cancelled, (rest cancelled).Enters env g none
  | .call _ work rest => due = none ∧ ∃ node step, env.Calls g node step work ∧
      ∀ e, (rest e).Enters env g (if e.succeeded then some (node, step) else none)
  | .fork branches rest => due = none ∧ allEnter env g branches ∧
      ∀ reports, (rest reports).Enters env g none

def allEnter (env : Environment C H X ω) (g : Graph C H) :
    List (Walk (Board C H X × ω) Report) → Prop
  | [] => True
  | w :: ws => w.Enters env g none ∧ allEnter env g ws

end

namespace Environment

variable {env : Environment C H X ω} {g : Graph C H} {due : Option (NodeId × Step C H)}

theorem allEnter_iff (ws : List (Walk (Board C H X × ω) Report)) :
    allEnter env g ws ↔ ∀ w ∈ ws, w.Enters env g none := by
  induction ws with
  | nil => simp [allEnter]
  | cons w ws ih => rw [allEnter, ih, List.forall_mem_cons]

/-- The piece keeps the rule, and hands on a value and a success that is due for which `V` holds. -/
def Part.Enters (env : Environment C H X ω) (g : Graph C H) (due : Option (NodeId × Step C H))
    (V : α → Option (NodeId × Step C H) → Prop) (p : Part C H X ω α) : Prop :=
  ∀ k : α → Walk (Board C H X × ω) Report, (∀ a due', V a due' → (k a).Enters env g due') →
    (p k).Enters env g due

namespace Part.Enters

variable {V : α → Option (NodeId × Step C H) → Prop} {W : β → Option (NodeId × Step C H) → Prop}

theorem pure {a : α} (h : V a due) : Part.Enters env g due V (Pure.pure a : Part C H X ω α) :=
  fun _ hk => hk a due h

theorem bind {p : Part C H X ω α} {f : α → Part C H X ω β} (hp : Part.Enters env g due V p)
    (hf : ∀ a due', V a due' → Part.Enters env g due' W (f a)) :
    Part.Enters env g due W (p >>= f) :=
  fun k hk => hp _ fun a due' ha => hf a due' ha k hk

theorem stop : Part.Enters env g due V (stop : Part C H X ω α) := fun _ _ => .inr rfl

theorem update {f : Board C H X × ω → α × (Board C H X × ω)}
    (h : ∀ s : Board C H X × ω, s.1.Even (f s).2.1) :
    Part.Enters env g due (fun _ due' => due' = due) (.update f : Part C H X ω α) :=
  fun _ hk s => .inl ⟨h s, hk _ due rfl⟩

theorem modify {f : Board C H X × ω → Board C H X × ω}
    (h : ∀ s : Board C H X × ω, s.1.Even (f s).1) :
    Part.Enters env g due (fun _ due' => due' = due) (.modify f : Part C H X ω Unit) :=
  update (f := fun s => ((), f s)) h

theorem read (f : Board C H X × ω → α) :
    Part.Enters env g due (fun _ due' => due' = due) (.read f : Part C H X ω α) :=
  update (f := fun s => (f s, s)) fun s => .refl s.1

theorem resting (d : Nanos) :
    Part.Enters env g none (fun _ due' => due' = none) (resting d : Part C H X ω Unit) := by
  intro k hk
  refine ⟨rfl, fun cancelled => ?_⟩
  cases cancelled with
  | false => exact hk () none rfl
  | true => exact .inr rfl

end Part.Enters

/-- The success of a result that is to be entered next. -/
def dueOf (node : NodeId) (s : Step C H) (r : StepResult) : Option (NodeId × Step C H) :=
  if r.isSuccess then some (node, s) else none

theorem announcing_enters (what : Happening) :
    Part.Enters env g due (fun _ due' => due' = due) (env.announcing what) :=
  .modify fun s => .refl s.1

theorem counting_enters {f : Metrics → Metrics} (hf : ∀ m, (f m).executed = m.executed) :
    Part.Enters env g due (fun _ due' => due' = due) (counting f : Part C H X ω Unit) :=
  .modify fun _ => ⟨rfl, hf _⟩

/-- Whatever comes of an attempt that has not succeeded, nothing is due. -/
theorem attempt_enters {node : NodeId} {s : Step C H} (hs : (node, s) ∈ g.steps) :
    Part.Enters env g none (fun r due => due = dueOf node s r) (env.attempt s) := by
  have hcheck (r : StepResult) : Part.Enters env g (dueOf node s r)
      (fun r due => due = dueOf node s r) (do
        if ← env.isCancelled then stop else pure r : Part C H X ω StepResult) := by
    refine (Part.Enters.read _).bind fun cancelled due' hdue => ?_
    cases cancelled with
    | true => exact .stop
    | false => exact .pure hdue
  refine fun k hk => ⟨rfl, node, s, ⟨hs, .inl rfl⟩, fun e => ?_⟩
  cases e with
  | timedOut => exact hk _ none rfl
  | cancelled => exact .inr rfl
  | finished r => exact hcheck r k hk
  | crashed m => exact hcheck (.failure (.panicked m)) k hk

/-- Only a step that has failed is tried again. -/
theorem judge_enters (node : NodeId) (s : Step C H) (policy : RetryPolicy) (attempt : Nat)
    (r : StepResult) : Part.Enters env g due
      (fun again due' => due' = due ∧ (again = true → r.isSuccess = false))
      (env.judge node s policy attempt r) := by
  unfold judge
  cases houtcome : r.outcome with
  | success => exact .pure ⟨rfl, nofun⟩
  | suspended => exact .pure ⟨rfl, nofun⟩
  | failure error shouldRetry =>
    refine (announcing_enters _).bind fun _ due' hdue => .pure ⟨hdue, fun _ => ?_⟩
    rw [StepResult.isSuccess, houtcome]
    rfl

theorem attempts_enters {node : NodeId} {s : Step C H} (hs : (node, s) ∈ g.steps)
    (policy : RetryPolicy) (spare attempt : Nat) :
    Part.Enters env g none (fun x due => due = dueOf node s x.1)
      (env.attempts node s policy spare attempt) := by
  induction spare generalizing attempt with
  | zero =>
    refine (attempt_enters hs).bind fun r due hdue => ?_
    exact (judge_enters node s policy attempt r).bind fun _ due' h => .pure (h.1.trans hdue)
  | succ spare ih =>
    refine (attempt_enters hs).bind fun r due hdue => ?_
    refine (judge_enters node s policy attempt r).bind fun again due' ⟨hsame, hfailed⟩ => ?_
    cases again with
    | false => exact .pure (hsame.trans hdue)
    | true =>
      have hnone : due' = none := by rw [hsame, hdue, dueOf, hfailed rfl]; rfl
      subst hnone
      refine .bind (counting_enters ?_) fun _ due' h => ?_
      · exact fun _ => rfl
      subst h
      refine (Part.Enters.resting _).bind fun _ due' h => ?_
      subst h
      exact ih (attempt + 1)

theorem trackContextSize_enters :
    Part.Enters env g due (fun _ due' => due' = due) env.trackContextSize := by
  unfold trackContextSize
  split
  · refine .modify fun s => ?_
    simp only
    split
    · exact .refl s.1
    · exact ⟨rfl, rfl⟩
  · exact .pure rfl

/-- The success that is due is entered at the end of a step. -/
theorem settle_enters (node : NodeId) (s : Step C H) (next : Option NodeId) (startedAt : Timestamp)
    (r : StepResult) (n : Nat) : Part.Enters env g (dueOf node s r) (fun _ due => due = none)
      (env.settle node s next startedAt r n) := by
  refine (Part.Enters.read _).bind fun completedAt due hdue => ?_
  subst hdue
  cases houtcome : r.outcome with
  | success =>
    have hdue : dueOf node s r = some (node, s) := by
      rw [dueOf, StepResult.isSuccess, houtcome]
      rfl
    intro k hk b
    refine .inr ⟨node, s, hdue, rfl, ?_⟩
    refine (announcing_enters _).bind (fun _ due h => ?_) k hk
    subst h
    exact trackContextSize_enters.bind fun _ due h => .pure h
  | failure error shouldRetry =>
    have hdue : dueOf node s r = none := by rw [dueOf, StepResult.isSuccess, houtcome]; rfl
    rw [hdue]
    refine .bind (counting_enters ?_) fun _ due h => .pure h
    exact fun _ => rfl
  | suspended signal limit =>
    have hdue : dueOf node s r = none := by rw [dueOf, StepResult.isSuccess, houtcome]; rfl
    rw [hdue]
    exact .pure rfl

theorem runStep_enters {node : NodeId} {s : Step C H} (hs : (node, s) ∈ g.steps)
    (next : Option NodeId) :
    Part.Enters env g none (fun _ due => due = none) (env.runStep node s next) := by
  refine (Part.Enters.read _).bind fun startedAt due hdue => ?_
  subst hdue
  refine (attempts_enters hs _ _ 1).bind fun x due hdue => ?_
  subst hdue
  exact settle_enters node s next startedAt x.1 x.2

theorem choose_enters (node : NodeId) (holds : Predicate C) (t e next : Option NodeId) :
    Part.Enters env g none (fun _ due => due = none)
      (choose node holds t e next : Part C H X ω Visited) := by
  refine (Part.Enters.read _).bind fun verdict due hdue => ?_
  cases verdict with
  | ok b => exact .pure hdue
  | error m => exact .pure hdue

section

variable {branch : NodeId → Walk (Board C H X × ω) Report}

theorem runParallel_enters (hbranch : ∀ node, (branch node).Enters env g none)
    (children : List NodeId) (next : Option NodeId) :
    Part.Enters env g none (fun _ due => due = none) (env.runParallel branch children next) := by
  refine fun k hk => ⟨rfl, (allEnter_iff _).2 fun w hw => ?_, fun reports => ?_⟩
  · obtain ⟨node, -, rfl⟩ := List.mem_map.1 hw
    exact hbranch node
  · refine (Part.Enters.read _).bind (V := fun _ due => due = none)
      (W := fun _ due => due = none) (fun cancelled due hdue => ?_) k hk
    split
    · exact .stop
    · exact .pure hdue

theorem enter_enters (hbranch : ∀ node, (branch node).Enters env g none) {node : NodeId}
    {n : Node C H} (hnode : g.get? node = some n) :
    Part.Enters env g none (fun _ due => due = none) (env.enter branch node n) := by
  unfold enter
  cases hkind : n.kind with
  | step s => exact runStep_enters (Graph.mem_steps hnode (by rw [Node.step?, hkind])) n.next
  | sequence children => exact .pure rfl
  | conditional holds t e => exact choose_enters node holds t e n.next
  | parallel children => exact runParallel_enters hbranch children n.next
  | delay d => exact (Part.Enters.resting d).bind fun _ due hdue => .pure hdue

theorem visit_enters (hbranch : ∀ node, (branch node).Enters env g none) (node : NodeId) :
    Part.Enters env g none (fun _ due => due = none) (env.visit g branch node) := by
  refine (Part.Enters.update fun s => ?_).bind fun admission due hdue => ?_
  · simp only [countVisit]
    split <;> exact ⟨rfl, rfl⟩
  · subst hdue
    cases admission with
    | cancelled => exact .stop
    | refused => exact .pure rfl
    | admitted =>
      simp only
      split
      · exact .pure rfl
      · next hnode => exact enter_enters hbranch hnode

end

theorem deliver_enters (node : NodeId) (signal : Signal) :
    Part.Enters env g none (fun _ due => due = none) (env.deliver g node signal) := by
  unfold deliver
  split
  · exact .pure rfl
  · next n hnode =>
    split
    · exact .pure rfl
    · next s hs =>
      refine (Part.Enters.read _).bind fun startedAt due hdue => ?_
      subst hdue
      refine fun k hk => ⟨rfl, node, s, ⟨Graph.mem_steps hnode hs, .inr ⟨signal, rfl⟩⟩, fun e => ?_⟩
      cases e with
      | finished r => exact settle_enters node s n.next startedAt r 1 k hk
      | crashed m => exact settle_enters node s n.next startedAt (.failure (.panicked m)) 1 k hk
      | timedOut => exact .inr rfl
      | cancelled => exact .inr rfl

theorem walkBranch_enters (fuel : Nat) (nodes : List NodeId) (trace : List StepTrace) :
    (env.walkBranch g fuel nodes trace).Enters env g none := by
  induction fuel generalizing nodes trace with
  | zero => cases nodes <;> exact .inl rfl
  | succ fuel ih =>
    cases nodes with
    | nil => exact .inl rfl
    | cons node ahead =>
      rw [walkBranch]
      refine visit_enters (fun child => ih [child] []) node _ fun v due hdue => ?_
      subst hdue
      simp only
      split
      · exact ih _ _
      · exact .inl rfl
      · exact .inl rfl

theorem pass_enters (node : NodeId) (ahead : List NodeId) (v : Visited)
    {next : List NodeId → Walk (Board C H X × ω) Report}
    (hnext : ∀ nodes, (next nodes).Enters env g none) :
    (env.pass node ahead v next).Enters env g none := by
  refine fun s => .inl ⟨⟨rfl, rfl⟩, ?_⟩
  cases v.turn with
  | onward nodes =>
    refine fun s => .inl ⟨?_, ?_⟩
    · simp only
      split <;> exact ⟨rfl, rfl⟩
    · simp only
      split
      · exact hnext _
      · exact .inl rfl
  | failed f => exact .inl rfl
  | suspended signal limit => exact fun s => .inl ⟨.refl s.1, .inl rfl⟩

theorem walkMain_enters (fuel : Nat) (nodes : List NodeId) :
    (env.walkMain g fuel nodes).Enters env g none := by
  induction fuel generalizing nodes with
  | zero => cases nodes <;> exact .inl rfl
  | succ fuel ih =>
    cases nodes with
    | nil => exact .inl rfl
    | cons node ahead =>
      rw [walkMain]
      refine visit_enters (fun child => walkBranch_enters fuel [child] []) node _
        fun v due hdue => ?_
      subst hdue
      exact pass_enters node ahead v ih

/-- Every walk of a run keeps the rule, wherever it starts. -/
theorem traverse_enters (d : Definition C H) (start : StartPoint) :
    (env.traverse d start).Enters env d.graph none := by
  cases start with
  | root => exact walkMain_enters _ _
  | frontier nodes => exact walkMain_enters _ _
  | signal node pending signal =>
    refine deliver_enters node signal _ fun v due hdue => ?_
    subst hdue
    exact pass_enters node _ v fun nodes => walkMain_enters _ nodes

end Environment

end DurableWorkflow

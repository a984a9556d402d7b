import DurableWorkflow.Proofs.Walk.Step
import DurableWorkflow.Run.Engine

/-!
# Walks that do not see a difference

`w.Blind L` says that from two states that `L` relates the walk `w` does the same: it leaves states
that `L` relates, and goes on as the same walk. So every step that it can take from the one state it
can take from the other (`Blind.step`).
-/

namespace DurableWorkflow

variable {σ ρ α β : Type} {L : σ → σ → Prop}

/-- The work does the same whatever `L` relates. -/
def Work.Blind (L : σ → σ → Prop) : Work σ α → Prop
  | .done _ | .crash _ => True
  | .act f rest => (∀ s t, L s t → L (f s) (f t) ∧ rest s = rest t) ∧ ∀ s, (rest s).Blind L
  | .sleep _ rest | .awaitCancel rest => rest.Blind L

mutual

/-- The walk does the same whatever `L` relates. -/
def Walk.Blind (L : σ → σ → Prop) : Walk σ ρ → Prop
  | .done _ => True
  | .act f rest => (∀ s t, L s t → L (f s) (f t) ∧ rest s = rest t) ∧ ∀ s, (rest s).Blind L
  | .pause _ rest => ∀ cancelled, (rest cancelled).Blind L
  | .call _ work rest => work.Blind L ∧ ∀ e, (rest e).Blind L
  | .fork branches rest => allBlind L branches ∧ ∀ rs, (rest rs).Blind L

def allBlind (L : σ → σ → Prop) : List (Walk σ ρ) → Prop
  | [] => True
  | w :: ws => w.Blind L ∧ allBlind L ws

end

theorem allBlind_iff (ws : List (Walk σ ρ)) : allBlind L ws ↔ ∀ w ∈ ws, w.Blind L := by
  induction ws with
  | nil => simp [allBlind]
  | cons w ws ih => rw [allBlind, ih, List.forall_mem_cons]

theorem Work.Blind.step {x y : Work σ α × σ} (h : Work.Step x y) (hx : x.1.Blind L) {t : σ}
    (hst : L x.2 t) : ∃ t', L y.2 t' ∧ Work.Step (x.1, t) (y.1, t') ∧ y.1.Blind L := by
  cases h with
  | act f rest s =>
    obtain ⟨hact, hrest⟩ := hx
    obtain ⟨hst', heq⟩ := hact s t hst
    refine ⟨f t, hst', ?_, hrest s⟩
    rw [heq]
    exact .act f rest t
  | sleep d rest s => exact ⟨t, hst, .sleep d rest t, hx⟩
  | awaitCancel rest s => exact ⟨t, hst, .awaitCancel rest t, hx⟩

theorem Walk.Blind.step {x y : Walk σ ρ × σ} (h : Walk.Step x y) (hx : x.1.Blind L) {t : σ}
    (hst : L x.2 t) : ∃ t', L y.2 t' ∧ Walk.Step (x.1, t) (y.1, t') ∧ y.1.Blind L := by
  induction h with
  | act f rest s =>
    obtain ⟨hact, hrest⟩ := hx
    obtain ⟨hst', heq⟩ := hact s t hst
    refine ⟨f t, hst', ?_, hrest s⟩
    rw [heq]
    exact .act f rest t
  | pause d rest cancelled s => exact ⟨t, hst, .pause d rest cancelled t, hx cancelled⟩
  | work h =>
    obtain ⟨hwork, hrest⟩ := hx
    obtain ⟨t', hst', hstep, hwork'⟩ := Work.Blind.step h hwork hst
    exact ⟨t', hst', .work hstep, hwork', hrest⟩
  | done limit r rest s => exact ⟨t, hst, .done limit r rest t, hx.2 _⟩
  | crash limit m rest s => exact ⟨t, hst, .crash limit m rest t, hx.2 _⟩
  | late d work rest s => exact ⟨t, hst, .late d work rest t, hx.2 _⟩
  | cancel limit work rest s => exact ⟨t, hst, .cancel limit work rest t, hx.2 _⟩
  | @branch before after w w' rest s s' h ih =>
    obtain ⟨hall, hrest⟩ := hx
    rw [allBlind_iff] at hall
    obtain ⟨t', hst', hstep, hw'⟩ := ih (hall w (by simp)) hst
    refine ⟨t', hst', .branch before after hstep, (allBlind_iff _).2 fun v hv => ?_, hrest⟩
    rcases List.mem_append.1 hv with hv | hv
    · exact hall v (List.mem_append_left _ hv)
    · rcases List.mem_cons.1 hv with rfl | hv
      · exact hw'
      · exact hall v (List.mem_append_right _ (List.mem_cons_of_mem _ hv))
  | report before after r rest s =>
    obtain ⟨hall, hrest⟩ := hx
    rw [allBlind_iff] at hall
    refine ⟨t, hst, .report before after r rest t, (allBlind_iff _).2 fun v hv => hall v ?_,
      fun rs => hrest (r :: rs)⟩
    rcases List.mem_append.1 hv with hv | hv
    · exact List.mem_append_left _ hv
    · exact List.mem_append_right _ (List.mem_cons_of_mem _ hv)
  | join rest s => exact ⟨t, hst, .join rest t, hx.2 []⟩

/-- Every walk that begins with the piece does the same whatever `L` relates, if what follows the
piece does. -/
def Piece.Blind (L : σ → σ → Prop) (p : Piece σ ρ α) : Prop :=
  ∀ k : α → Walk σ ρ, (∀ a, (k a).Blind L) → (p k).Blind L

namespace Piece.Blind

theorem pure (a : α) : (Pure.pure a : Piece σ ρ α).Blind L := fun _ hk => hk a

theorem bind {p : Piece σ ρ α} {f : α → Piece σ ρ β} (hp : p.Blind L) (hf : ∀ a, (f a).Blind L) :
    (p >>= f).Blind L := fun k hk => hp _ fun a => hf a k hk

theorem halt (r : ρ) : (Piece.halt r : Piece σ ρ α).Blind L := fun _ _ => trivial

theorem update {f : σ → α × σ} (h : ∀ s t, L s t → L (f s).2 (f t).2 ∧ (f s).1 = (f t).1) :
    (Piece.update f : Piece σ ρ α).Blind L := by
  refine fun k hk => ⟨fun s t hst => ?_, fun s => hk (f s).1⟩
  obtain ⟨hst', heq⟩ := h s t hst
  exact ⟨hst', congrArg k heq⟩

theorem modify {f : σ → σ} (h : ∀ s t, L s t → L (f s) (f t)) :
    (Piece.modify f : Piece σ ρ Unit).Blind L := update (f := fun s => ((), f s)) fun s t hst =>
  ⟨h s t hst, rfl⟩

theorem read {f : σ → α} (h : ∀ s t, L s t → f s = f t) : (Piece.read f : Piece σ ρ α).Blind L :=
  update (f := fun s => (f s, s)) fun s t hst => ⟨hst, h s t hst⟩

theorem pause (d : Nanos) : (Piece.pause d : Piece σ ρ Bool).Blind L := fun _ hk => hk

theorem call (limit : Option Nanos) {work : Work σ StepResult} (h : work.Blind L) :
    (Piece.call limit work : Piece σ ρ CallEnd).Blind L := fun _ hk => ⟨h, hk⟩

theorem fork {branches : List (Walk σ ρ)} (h : ∀ w ∈ branches, w.Blind L) :
    (Piece.fork branches).Blind L := fun _ hk => ⟨(allBlind_iff _).2 h, hk⟩

end Piece.Blind

end DurableWorkflow

/-!
### Runs that do not see a difference

An environment overlooks a difference of worlds if all that it reads of them is the same and all
that it does to them leaves the same difference. A run in such an environment does not see the
difference, wherever it begins (`traverse_blind`).
-/

namespace DurableWorkflow

variable {C H X ω τ : Type} {S : ω → ω → Prop}

/-- The same beside worlds that `S` relates. -/
def Alongside (S : ω → ω → Prop) (x y : τ × ω) : Prop := x.1 = y.1 ∧ S x.2 y.2

/-- What was saved, or the reason why not, is the same, and so is the difference. -/
def Saved (S : ω → ω → Prop) : Except String (X × ω) → Except String (X × ω) → Prop
  | .ok x, .ok y => Alongside S x y
  | .error m, .error n => m = n
  | _, _ => False

/-- Nothing that the environment says of a world depends on the difference. -/
structure Environment.Overlooks (env : Environment C H X ω) (S : ω → ω → Prop) : Prop where
  cancelled : ∀ {w v}, S w v → env.cancelled w = env.cancelled v
  wall : ∀ {w v}, S w v → env.wall w = env.wall v
  instant : ∀ {w v}, S w v → env.instant w = env.instant v
  memory : ∀ {w v}, S w v → env.memory w = env.memory v
  setMemory : ∀ {w v} h, S w v → S (env.setMemory h w) (env.setMemory h v)
  publish : ∀ {w v} e, S w v → S (env.publish e w) (env.publish e v)
  save : ∀ {w v} c x, S w v → Saved S (env.save c (x, w)) (env.save c (x, v))

namespace Environment

variable {env : Environment C H X ω} {g : Graph C H}

theorem onBoard_blind (h : env.Overlooks S) (work : Work (C × H) StepResult) :
    (env.onBoard work).Blind (Alongside (τ := Board C H X) S) := by
  rw [onBoard]
  induction work with
  | done | crash => trivial
  | act f rest ih =>
    refine ⟨?_, fun s => ih _⟩
    rintro ⟨b, w⟩ ⟨_, v⟩ ⟨rfl, hS⟩
    simp only [h.memory hS]
    exact ⟨⟨rfl, h.setMemory _ hS⟩, trivial⟩
  | sleep d rest ih => exact ih
  | awaitCancel rest ih => exact ih

theorem isCancelled_blind (h : env.Overlooks S) :
    env.isCancelled.Blind (Alongside (τ := Board C H X) S) :=
  .read fun _ _ hS => h.cancelled hS.2

theorem now_blind (h : env.Overlooks S) : env.now.Blind (Alongside (τ := Board C H X) S) :=
  .read fun _ _ hS => h.wall hS.2

theorem announcing_blind (h : env.Overlooks S) (what : Happening) :
    (env.announcing what).Blind (Alongside (τ := Board C H X) S) :=
  .modify fun _ _ hS => ⟨hS.1, h.publish _ hS.2⟩

theorem counting_blind (f : Metrics → Metrics) :
    (counting f : Part C H X ω Unit).Blind (Alongside S) := by
  refine .modify ?_
  rintro ⟨b, w⟩ ⟨_, v⟩ ⟨rfl, hS⟩
  exact ⟨rfl, hS⟩

theorem resting_blind (d : Nanos) : (resting d : Part C H X ω Unit).Blind (Alongside S) := by
  refine (Piece.Blind.pause d).bind fun cancelled => ?_
  cases cancelled
  · exact .pure ()
  · exact .halt _

theorem attempt_blind (h : env.Overlooks S) (s : Step C H) :
    (env.attempt s).Blind (Alongside (τ := Board C H X) S) := by
  refine (Piece.Blind.call s.limit (onBoard_blind h s.execute)).bind fun ending => ?_
  have hcheck (r : StepResult) : (do
      if ← env.isCancelled then stop else pure r :
      Part C H X ω StepResult).Blind (Alongside S) := by
    refine (isCancelled_blind h).bind fun cancelled => ?_
    cases cancelled
    · exact .pure r
    · exact .halt _
  cases ending with
  | timedOut => exact .pure _
  | cancelled => exact .halt _
  | finished r => exact hcheck r
  | crashed m => exact hcheck _

theorem judge_blind (h : env.Overlooks S) (node : NodeId) (s : Step C H) (policy : RetryPolicy)
    (attempt : Nat) (r : StepResult) :
    (env.judge node s policy attempt r).Blind (Alongside (τ := Board C H X) S) := by
  unfold judge
  cases r.outcome with
  | success | suspended => exact .pure _
  | failure => exact (announcing_blind h _).bind fun _ => .pure _

theorem attempts_blind (h : env.Overlooks S) (node : NodeId) (s : Step C H) (policy : RetryPolicy)
    (spare attempt : Nat) :
    (env.attempts node s policy spare attempt).Blind (Alongside (τ := Board C H X) S) := by
  induction spare generalizing attempt with
  | zero =>
    exact (attempt_blind h s).bind fun r => (judge_blind h node s policy attempt r).bind fun _ =>
      .pure _
  | succ spare ih =>
    refine (attempt_blind h s).bind fun r => (judge_blind h node s policy attempt r).bind fun b => ?_
    cases b
    · exact .pure _
    · exact (counting_blind _).bind fun _ => (resting_blind _).bind fun _ => ih (attempt + 1)

theorem trackContextSize_blind :
    env.trackContextSize.Blind (Alongside (τ := Board C H X) S) := by
  unfold trackContextSize
  split
  · refine .modify ?_
    rintro ⟨b, w⟩ ⟨_, v⟩ ⟨rfl, hS⟩
    dsimp only
    split
    · exact ⟨rfl, hS⟩
    · exact ⟨rfl, hS⟩
  · exact .pure ()

theorem settle_blind (h : env.Overlooks S) (node : NodeId) (s : Step C H) (next : Option NodeId)
    (startedAt : Timestamp) (r : StepResult) (n : Nat) :
    (env.settle node s next startedAt r n).Blind (Alongside (τ := Board C H X) S) := by
  refine (now_blind h).bind fun completedAt => ?_
  cases r.outcome with
  | success =>
    refine .bind (.modify ?_) fun _ => (announcing_blind h _).bind fun _ =>
      trackContextSize_blind.bind fun _ => .pure _
    rintro ⟨b, w⟩ ⟨_, v⟩ ⟨rfl, hS⟩
    exact ⟨rfl, hS⟩
  | failure => exact (counting_blind _).bind fun _ => .pure _
  | suspended => exact .pure _

theorem runParallel_blind (h : env.Overlooks S) {branch : NodeId → Walk (Board C H X × ω) Report}
    (hbranch : ∀ node, (branch node).Blind (Alongside S)) (children : List NodeId)
    (next : Option NodeId) : (env.runParallel branch children next).Blind (Alongside S) := by
  refine (Piece.Blind.fork fun w hw => ?_).bind fun reports =>
    (isCancelled_blind h).bind fun cancelled => ?_
  · obtain ⟨node, -, rfl⟩ := List.mem_map.1 hw
    exact hbranch node
  · split
    · exact .halt _
    · exact .pure _

theorem enter_blind (h : env.Overlooks S) {branch : NodeId → Walk (Board C H X × ω) Report}
    (hbranch : ∀ node, (branch node).Blind (Alongside S)) (node : NodeId) (n : Node C H) :
    (env.enter branch node n).Blind (Alongside S) := by
  unfold enter
  cases n.kind with
  | step s =>
    exact (now_blind h).bind fun _ => (attempts_blind h node s _ _ 1).bind fun x =>
      settle_blind h node s _ _ x.1 x.2
  | sequence => exact .pure _
  | conditional holds t e =>
    refine Piece.Blind.bind (.read fun _ _ hS => congrArg (fun b => holds b.context) hS.1)
      fun verdict => ?_
    cases verdict <;> exact .pure _
  | parallel children => exact runParallel_blind h hbranch children n.next
  | delay d => exact (resting_blind d).bind fun _ => .pure _

theorem visit_blind (h : env.Overlooks S) {branch : NodeId → Walk (Board C H X × ω) Report}
    (hbranch : ∀ node, (branch node).Blind (Alongside S)) (node : NodeId) :
    (env.visit g branch node).Blind (Alongside S) := by
  refine (Piece.Blind.update ?_).bind fun admission => ?_
  · rintro ⟨b, w⟩ ⟨_, v⟩ ⟨rfl, hS⟩
    simp only [countVisit, h.cancelled hS]
    split
    · exact ⟨⟨rfl, hS⟩, rfl⟩
    · exact ⟨⟨rfl, hS⟩, rfl⟩
  · cases admission with
    | cancelled => exact .halt _
    | refused => exact .pure _
    | admitted =>
      dsimp only
      split
      · exact .pure _
      · exact enter_blind h hbranch node _

theorem deliver_blind (h : env.Overlooks S) (node : NodeId) (signal : Signal) :
    (env.deliver g node signal).Blind (Alongside (τ := Board C H X) S) := by
  unfold deliver
  split
  · exact .pure _
  · split
    · exact .pure _
    · refine (now_blind h).bind fun startedAt =>
        (Piece.Blind.call none (onBoard_blind h _)).bind fun ending => ?_
      cases ending with
      | finished r => exact settle_blind h node _ _ startedAt r 1
      | crashed m => exact settle_blind h node _ _ startedAt _ 1
      | timedOut | cancelled => exact .halt _

theorem walkBranch_blind (h : env.Overlooks S) (fuel : Nat) (nodes : List NodeId)
    (trace : List StepTrace) :
    (env.walkBranch g fuel nodes trace).Blind (Alongside (τ := Board C H X) S) := by
  induction fuel generalizing nodes trace with
  | zero => cases nodes <;> exact trivial
  | succ fuel ih =>
    cases nodes with
    | nil => exact trivial
    | cons node ahead =>
      rw [walkBranch]
      refine visit_blind h (fun child => ih [child] []) node _ fun v => ?_
      dsimp only
      split
      · exact ih _ _
      · exact trivial
      · exact trivial

theorem checkpoint_blind (h : env.Overlooks S) (ahead : List NodeId) (trace : List StepTrace) :
    (env.checkpoint ahead trace).Blind (Alongside (τ := Board C H X) S) := by
  refine .update ?_
  rintro ⟨b, w⟩ ⟨_, v⟩ ⟨rfl, hS⟩
  have hsaved := h.save ⟨b.context, ahead.reverse, trace⟩ b.extra hS
  dsimp only
  generalize env.save _ (b.extra, w) = r at hsaved
  generalize env.save _ (b.extra, v) = r' at hsaved
  cases r with
  | ok x =>
    cases r' with
    | ok y =>
      obtain ⟨x, w'⟩ := x
      obtain ⟨y, v'⟩ := y
      obtain ⟨rfl, hS'⟩ := hsaved
      exact ⟨⟨rfl, hS'⟩, rfl⟩
    | error n => exact hsaved.elim
  | error m =>
    cases r' with
    | ok y => exact hsaved.elim
    | error n => exact ⟨⟨rfl, hS⟩, congrArg some hsaved⟩

theorem pass_blind (h : env.Overlooks S) (node : NodeId) (ahead : List NodeId) (v : Visited)
    {next : List NodeId → Walk (Board C H X × ω) Report}
    (hnext : ∀ nodes, (next nodes).Blind (Alongside S)) :
    (env.pass node ahead v next).Blind (Alongside S) := by
  refine ⟨?_, fun _ => ?_⟩
  · rintro ⟨b, w⟩ ⟨_, v⟩ ⟨rfl, hS⟩
    exact ⟨⟨rfl, hS⟩, rfl⟩
  split
  · refine checkpoint_blind h _ _ _ fun m => ?_
    cases m with
    | none => exact hnext _
    | some m => trivial
  · exact trivial
  · exact announcing_blind h _ (fun _ => .done _) fun _ => trivial

theorem walkMain_blind (h : env.Overlooks S) (fuel : Nat) (nodes : List NodeId) :
    (env.walkMain g fuel nodes).Blind (Alongside (τ := Board C H X) S) := by
  induction fuel generalizing nodes with
  | zero => cases nodes <;> exact trivial
  | succ fuel ih =>
    cases nodes with
    | nil => exact trivial
    | cons node ahead =>
      rw [walkMain]
      exact visit_blind h (fun child => walkBranch_blind h fuel [child] []) node _ fun v =>
        pass_blind h node ahead v ih

theorem traverse_blind (h : env.Overlooks S) (d : Definition C H) (start : StartPoint) :
    (env.traverse d start).Blind (Alongside (τ := Board C H X) S) := by
  cases start with
  | root => exact walkMain_blind h _ _
  | frontier nodes => exact walkMain_blind h _ _
  | signal node pending signal =>
    exact deliver_blind h node signal _ fun v => pass_blind h node _ v (walkMain_blind h _)

end Environment

end DurableWorkflow

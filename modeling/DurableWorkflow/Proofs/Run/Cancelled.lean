import DurableWorkflow.Proofs.Run.Keeps
import DurableWorkflow.Proofs.Schedule.Interruption
import DurableWorkflow.Proofs.Schedule.Stopping

/-!
# Cancelled runs

A run that is cancelled while it waits, wherever that is, does nothing any more and ends without a
result (`run_interrupted`).

A step may also cancel the run itself and end without waiting. An attempt at a step looks before
anything else is done, so again nothing but the work of steps comes after that (`run_obeys`). Two
runs are left out there: one that begins with a delivery, which does not look when it has ended
(`deliver_unheeded`), and one of steps with limits, since a limit may be over in the very turn in
which the work cancels the run, and then the attempt counts as failed.
-/

namespace DurableWorkflow

variable {C H X ω : Type}

/-- The piece minds if what follows does. -/
def Piece.Minds {σ ρ α : Type} (m : Manner σ) (P : ρ → Prop) (p : Piece σ ρ α) : Prop :=
  ∀ k : α → Walk σ ρ, (∀ a, (k a).Minds m P) → (p k).Minds m P

namespace Piece.Minds

variable {σ ρ α β : Type} {m : Manner σ} {P : ρ → Prop}

theorem pure (a : α) : (Pure.pure a : Piece σ ρ α).Minds m P := fun _ hk => hk a

theorem bind {p : Piece σ ρ α} {f : α → Piece σ ρ β} (hp : p.Minds m P)
    (hf : ∀ a, (f a).Minds m P) : (p >>= f).Minds m P := fun k hk => hp _ fun a => hf a k hk

theorem halt (r : ρ) : (Piece.halt r : Piece σ ρ α).Minds m P := fun _ _ => trivial

theorem update {f : σ → α × σ} (h : ∀ s, m.acts s (f s).2) :
    (Piece.update f : Piece σ ρ α).Minds m P := fun _ hk s => ⟨h s, hk _⟩

theorem modify {f : σ → σ} (h : ∀ s, m.acts s (f s)) :
    (Piece.modify f : Piece σ ρ Unit).Minds m P := fun _ hk s => ⟨h s, hk ()⟩

theorem read (f : σ → α) (h : ∀ s, m.acts s s) : (Piece.read f : Piece σ ρ α).Minds m P :=
  fun _ hk s => ⟨h s, hk _⟩

end Piece.Minds

namespace Environment

/-- The manner of runs over the graph. -/
structure Suits (env : Environment C H X ω) (m : Manner (Board C H X × ω)) (g : Graph C H) :
    Prop where
  stop : m.stop = fun s => env.cancelled s.2
  board : ∀ b b' w, m.acts (b, w) (b', w)
  publish : ∀ b e w, m.acts (b, w) (b, env.publish e w)
  save : ∀ c b w x w', env.save c (b.extra, w) = .ok (x, w') →
    m.acts (b, w) ({ b with extra := x }, w')
  works : ∀ node n s, g.get? node = some n → n.step? = some s →
    (m.limited ∨ s.limit = none) ∧ m.works (env.onBoard s.execute)
  unlooked : ¬m.looks .timedOut

variable {env : Environment C H X ω} {m : Manner (Board C H X × ω)} {g : Graph C H}
  {P : Report → Prop}

theorem resting_minds (hP : P { halt := .cancelled }) (d : Nanos) :
    (resting d : Part C H X ω Unit).Minds m P := by
  refine fun k hk => ⟨hP, fun cancelled => ?_⟩
  cases cancelled
  · exact hk ()
  · trivial

theorem attempt_minds (h : env.Suits m g) (hP : P { halt := .cancelled }) {s : Step C H}
    (hs : (m.limited ∨ s.limit = none) ∧ m.works (env.onBoard s.execute)) :
    (env.attempt s).Minds m P := by
  refine fun k hk => ⟨hs.1, hs.2, fun e => ?_⟩
  have hcheck (r : StepResult) : let rest := (do
      if ← env.isCancelled then stop else pure r : Part C H X ω StepResult) k
      (m.looks e → rest.Quits m.stop P) ∧ rest.Minds m P := by
    refine ⟨fun _ s hs => ⟨rfl, ?_⟩, fun s => ⟨h.board _ _ _, ?_⟩⟩
    · rw [h.stop] at hs
      simp only [hs, if_true]
      exact hP
    · simp only
      split
      · trivial
      · exact hk r
  cases e with
  | timedOut => exact ⟨fun hlooks => absurd hlooks h.unlooked, hk _⟩
  | cancelled => exact ⟨fun _ => hP, trivial⟩
  | finished r => exact hcheck r
  | crashed message => exact hcheck _

theorem announcing_minds (h : env.Suits m g) (what : Happening) :
    (env.announcing what : Part C H X ω Unit).Minds m P :=
  .modify fun s => h.publish s.1 _ s.2

theorem counting_minds (h : env.Suits m g) (f : Metrics → Metrics) :
    (counting f : Part C H X ω Unit).Minds m P :=
  .modify fun s => h.board s.1 _ s.2

theorem judge_minds (h : env.Suits m g) (node : NodeId) (s : Step C H) (policy : RetryPolicy)
    (attempt : Nat) (r : StepResult) : (env.judge node s policy attempt r).Minds m P := by
  unfold judge
  cases r.outcome with
  | success | suspended => exact .pure _
  | failure => exact (announcing_minds h _).bind fun _ => .pure _

theorem attempts_minds (h : env.Suits m g) (hP : P { halt := .cancelled }) (node : NodeId)
    {s : Step C H} (hs : (m.limited ∨ s.limit = none) ∧ m.works (env.onBoard s.execute))
    (policy : RetryPolicy) (spare attempt : Nat) :
    (env.attempts node s policy spare attempt).Minds m P := by
  induction spare generalizing attempt with
  | zero =>
    exact (attempt_minds h hP hs).bind fun r =>
      (judge_minds h node s policy attempt r).bind fun _ => .pure _
  | succ spare ih =>
    refine (attempt_minds h hP hs).bind fun r =>
      (judge_minds h node s policy attempt r).bind fun again => ?_
    cases again
    · exact .pure _
    · exact (counting_minds h _).bind fun _ => (resting_minds hP _).bind fun _ => ih (attempt + 1)

theorem settle_minds (h : env.Suits m g) (node : NodeId) (s : Step C H) (next : Option NodeId)
    (startedAt : Timestamp) (r : StepResult) (n : Nat) :
    (env.settle node s next startedAt r n).Minds m P := by
  refine (Piece.Minds.read _ fun s => h.board s.1 _ s.2).bind fun completedAt => ?_
  cases r.outcome with
  | success =>
    refine .bind (.modify fun s => h.board s.1 _ s.2) fun _ =>
      (announcing_minds h _).bind fun _ => .bind ?_ fun _ => .pure _
    unfold trackContextSize
    split
    · refine .modify fun s => ?_
      simp only
      split <;> exact h.board s.1 _ s.2
    · exact .pure ()
  | failure => exact (counting_minds h _).bind fun _ => .pure _
  | suspended => exact .pure _

section

variable {branch : NodeId → Walk (Board C H X × ω) Report}
  (hbranch : ∀ node, (branch node).Quits m.stop (fun _ => True) ∧
    (branch node).Minds m fun _ => True)

include hbranch

theorem runParallel_minds (h : env.Suits m g) (hP : P { halt := .cancelled })
    (children : List NodeId) (next : Option NodeId) :
    (env.runParallel branch children next).Minds m P := by
  refine fun k hk => ⟨?_, fun reports => ⟨fun s hs => ⟨rfl, ?_⟩, fun s => ⟨h.board _ _ _, ?_⟩⟩⟩
  · induction children with
    | nil => trivial
    | cons child children ih => exact ⟨(hbranch child).1, (hbranch child).2, ih⟩
  · rw [h.stop] at hs
    simp only [hs, Bool.true_or, if_true]
    exact hP
  · simp only
    split
    · trivial
    · exact hk _

theorem enter_minds (h : env.Suits m g) (hP : P { halt := .cancelled })
    {node : NodeId} {n : Node C H} (hnode : g.get? node = some n) :
    (env.enter branch node n).Minds m P := by
  have hworks := h.works node n
  unfold enter
  cases hkind : n.kind with
  | step s =>
    have hs := hworks s hnode (by rw [Node.step?, hkind])
    exact (Piece.Minds.read _ fun s => h.board s.1 _ s.2).bind fun _ =>
      (attempts_minds h hP node hs _ _ 1).bind fun x => settle_minds h node s n.next _ x.1 x.2
  | sequence => exact .pure _
  | conditional =>
    refine (Piece.Minds.read _ fun s => h.board s.1 _ s.2).bind fun verdict => ?_
    cases verdict <;> exact .pure _
  | parallel children => exact runParallel_minds hbranch h hP children n.next
  | delay d => exact (resting_minds hP d).bind fun _ => .pure _

theorem visit_minds (h : env.Suits m g) (hP : P { halt := .cancelled })
    (node : NodeId) : (env.visit g branch node).Minds m P := by
  refine (Piece.Minds.update fun s => ?_).bind fun admission => ?_
  · simp only [countVisit]
    split <;> exact h.board s.1 _ s.2
  · cases admission with
    | cancelled => exact .halt _
    | refused => exact .pure _
    | admitted =>
      simp only
      split
      · exact .pure _
      · next hnode => exact enter_minds hbranch h hP hnode

end

theorem visit_quits (h : env.Suits m g) (hP : P { halt := .cancelled })
    (branch : NodeId → Walk (Board C H X × ω) Report) (node : NodeId)
    (k : Visited → Walk (Board C H X × ω) Report) : (env.visit g branch node k).Quits m.stop P := by
  intro s hs
  rw [h.stop] at hs
  have hcount : env.countVisit s = (.cancelled, s) := if_pos hs
  refine ⟨congrArg Prod.snd hcount, ?_⟩
  simp only [hcount]
  exact hP

theorem walkBranch_minds (h : env.Suits m g) (fuel : Nat) (nodes : List NodeId)
    (trace : List StepTrace) : (env.walkBranch g fuel nodes trace).Quits m.stop (fun _ => True) ∧
      (env.walkBranch g fuel nodes trace).Minds m fun _ => True := by
  induction fuel generalizing nodes trace with
  | zero => cases nodes <;> exact ⟨trivial, trivial⟩
  | succ fuel ih =>
    cases nodes with
    | nil => exact ⟨trivial, trivial⟩
    | cons node ahead =>
      rw [walkBranch]
      refine ⟨visit_quits h trivial _ node _, ?_⟩
      refine visit_minds (fun child => ih [child] []) h trivial node _ fun v => ?_
      simp only
      split
      · exact (ih _ _).2
      · trivial
      · trivial

theorem pass_minds (h : env.Suits m g) (node : NodeId) (ahead : List NodeId) (v : Visited)
    {next : List NodeId → Walk (Board C H X × ω) Report} (hnext : ∀ nodes, (next nodes).Minds m P) :
    (env.pass node ahead v next).Minds m P := by
  refine fun s => ⟨h.board _ _ _, ?_⟩
  split
  · refine fun s => ⟨?_, ?_⟩
    · simp only
      split
      · next heq => exact h.save _ _ _ _ _ heq
      · exact h.board s.1 _ s.2
    · simp only
      split
      · exact hnext _
      · trivial
  · trivial
  · exact fun s => ⟨h.publish s.1 _ s.2, trivial⟩

theorem walkMain_minds (h : env.Suits m g) (hP : P { halt := .cancelled }) (fuel : Nat)
    (nodes : List NodeId) : (env.walkMain g fuel nodes).Minds m P := by
  induction fuel generalizing nodes with
  | zero => cases nodes <;> trivial
  | succ fuel ih =>
    cases nodes with
    | nil => trivial
    | cons node ahead =>
      rw [walkMain]
      exact visit_minds (fun child => walkBranch_minds h fuel [child] []) h hP node _ fun v =>
        pass_minds h node ahead v ih

theorem deliver_minds (h : env.Suits m g) (hP : P { halt := .cancelled }) (node : NodeId)
    (signal : Signal) (hlooks : ∀ e, m.looks e → e = .cancelled)
    (hworks : ∀ n s, g.get? node = some n → n.step? = some s →
      m.works (env.onBoard (s.onSignal signal))) :
    (env.deliver g node signal).Minds m P := by
  unfold deliver
  split
  · exact .pure _
  · next n hnode =>
    split
    · exact .pure _
    · next s hs =>
      refine (Piece.Minds.read _ fun s => h.board s.1 _ s.2).bind fun startedAt => fun k hk => ?_
      refine ⟨.inr rfl, hworks n s hnode hs, fun e => ⟨fun he => ?_, ?_⟩⟩
      · rw [hlooks e he]
        exact hP
      · cases e with
        | finished r => exact settle_minds h node s n.next startedAt r 1 k hk
        | crashed message => exact settle_minds h node s n.next startedAt _ 1 k hk
        | timedOut | cancelled => trivial

/-! ### Interruption -/

/-- The manner of all runs: they look whether they are cancelled wherever they wait. -/
def interruption (env : Environment C H X ω) : Manner (Board C H X × ω) where
  stop s := env.cancelled s.2
  acts _ _ := True
  works _ := True
  limited := True
  looks e := e = .cancelled
  looks_cancelled := rfl
  works_step _ _ := trivial

theorem interruption_suits (env : Environment C H X ω) (g : Graph C H) :
    env.Suits env.interruption g where
  stop := rfl
  board _ _ _ := trivial
  publish _ _ _ := trivial
  save _ _ _ _ _ _ := trivial
  works _ _ _ _ _ := ⟨.inl trivial, trivial⟩
  unlooked h := by cases h

theorem traverse_minds (env : Environment C H X ω) (d : Definition C H) (start : StartPoint) :
    (env.traverse d start).Minds env.interruption Report.Stopped := by
  have h := interruption_suits env d.graph
  have hP : Report.Stopped { halt := .cancelled } := rfl
  cases start with
  | root => exact walkMain_minds h hP _ _
  | frontier nodes => exact walkMain_minds h hP _ _
  | signal node pending signal =>
    exact deliver_minds h hP node signal (fun _ he => he) (fun _ _ _ _ => trivial) _ fun v =>
      pass_minds h node _ v fun nodes => walkMain_minds h hP _ nodes

end Environment

/-- A course without walks in front. -/
theorem Course.Minds.bind {ω τ β α γ : Type} {m : Manner (τ × ω)} {P : β → Prop} {A : τ → γ → Prop}
    {course : Course ω τ β α} (h : course.Minds m P fun _ _ => False)
    {k : α → Course ω τ β γ} (hk : ∀ a, (k a).Minds m P A) : (course.bind k).Minds m P A := by
  induction course with
  | done a => exact hk a
  | crash => trivial
  | act f rest ih => exact fun w => ih w (h w)
  | wait d rest ih => exact ih h
  | walk cancelled limit own path rest ih =>
    obtain ⟨hstop, hpath, hrest⟩ := h
    refine ⟨hstop, hpath, fun own => ⟨fun r hr => ?_, fun r => ih own r ((hrest own).2 r)⟩⟩
    obtain ⟨-, -, hfalse⟩ := (hrest own).1 r hr
    exact hfalse.elim
  | perform cancelled own work rest ih => exact fun own e => ih own e (h own e)

namespace Environment

variable {env : Environment C H X ω}

theorem undo_minds {m : Manner (Board C H X × ω)} {P : Report → Prop}
    {A : Board C H X → Board C H X × Undone → Prop} (board : Board C H X) (u : Undone)
    (steps : List (NodeId × Step C H)) : (env.undo board u steps).Minds m P A := by
  induction steps generalizing board u with
  | nil => trivial
  | cons x steps ih =>
    unfold undo
    split
    · exact ih board u
    · exact fun board e => ih board _

theorem conclude_minds {m : Manner (Board C H X × ω)} {P : Report → Prop}
    {A : Board C H X → Board C H X × RunResult C → Prop} (d : Definition C H) (begin : Nat)
    (board : Board C H X) (outcome : RunOutcome) :
    (env.conclude d begin board outcome).Minds m P A := by
  refine .bind (undo_minds board {} _) fun x w => ?_
  simp only [Course.pure_bind]
  split
  · exact fun _ => trivial
  · trivial

theorem run_minds {m : Manner (Board C H X × ω)} (hstop : m.stop = fun s => env.cancelled s.2)
    {d : Definition C H} {start : StartPoint} (h : (env.traverse d start).Minds m Report.Stopped)
    (context : C) (extra : X) :
    (env.run d start context extra).Minds m Report.Stopped fun board a =>
      a = (board.extra, none) := by
  refine fun _ _ => ⟨hstop, h, fun board => ⟨fun r hr => ⟨_, ?_, rfl⟩, fun report => ?_⟩⟩
  · have hhalt : r.halt = .cancelled := by simpa [Report.Stopped, Report.isCancelled] using hr
    simp [Report.crash?, outcome, hhalt]
    rfl
  · simp only
    split
    · trivial
    · trivial
    · refine .bind (conclude_minds d _ board _) fun x => ?_
      exact trivial

/-- A run that is cancelled while it waits does nothing any more and ends without a result. -/
theorem run_interrupted (env : Environment C H X ω) (d : Definition C H) (start : StartPoint)
    (context : C) (extra : X) {cancelled : ω → Bool} {deadline : Option Moment}
    {board : Board C H X} {strand : Strand (Board C H X × ω) Report}
    {rest : Board C H X → Option Report → Op C H X ω (X × Option (RunResult C))}
    (h : Task.Of (env.run d start context extra) (.walking cancelled deadline board strand rest)) :
    (Task.walking cancelled deadline board strand rest).Stops env.cancelled
      (· = (board.extra, none)) := by
  have hminds := h.minds (run_minds rfl (traverse_minds env d start) context extra)
  have hcancelled : cancelled = env.cancelled :=
    funext fun w => (congrFun hminds.1 (board, w)).symm
  rw [← hcancelled]
  exact hminds.stops

/-! ### Steps that cancel the run -/

/-- Announcements and checkpoints do not cancel the run. -/
structure Uncancelling (env : Environment C H X ω) : Prop where
  publish : ∀ e w, env.cancelled w = false → env.cancelled (env.publish e w) = false
  save : ∀ c x w x' w', env.save c (x, w) = .ok (x', w') → env.cancelled w = false →
    env.cancelled w' = false

/-- The steps of the graph have no limits, and running them keeps `K`. -/
def StepsKeep (env : Environment C H X ω) (g : Graph C H) (K : Board C H X × ω → Prop) : Prop :=
  ∀ node n s, g.get? node = some n → n.step? = some s →
    s.limit = none ∧ (env.onBoard s.execute).Keeps fun x y => K x → K y

/-- The manner of runs that do not begin with a delivery. -/
def obedience (env : Environment C H X ω) (K : Board C H X × ω → Prop) :
    Manner (Board C H X × ω) where
  stop s := env.cancelled s.2
  acts s t := env.cancelled s.2 = false → env.cancelled t.2 = false
  works w := w.Keeps fun s t => K s → K t
  limited := False
  looks e := e ≠ .timedOut
  looks_cancelled := by simp
  works_step h hstep := (Work.Keeps.step hstep h).2

variable {K : Board C H X × ω → Prop} {d : Definition C H} {start : StartPoint}

theorem obedience_suits (h : env.Uncancelling) {g : Graph C H} (hK : env.StepsKeep g K) :
    env.Suits (env.obedience K) g where
  stop := rfl
  board _ _ _ := id
  publish _ e w := h.publish e w
  save c b w x w' hsave := h.save c b.extra w x w' hsave
  works node n s hnode hs := (hK node n s hnode hs).imp_left .inr
  unlooked hlooks := hlooks rfl

theorem obedience_strict (hcalm : ∀ s, env.cancelled s.2 = false → K s) :
    (env.obedience K).Strict K where
  acts _ _ h := h
  works _ h := h
  limits h := h
  looks _ h := h
  holds := hcalm

theorem traverse_obeys (h : env.Uncancelling) (hK : env.StepsKeep d.graph K)
    (hstart : ∀ node pending signal, start ≠ .signal node pending signal) :
    (env.traverse d start).Minds (env.obedience K) Report.Stopped := by
  have hsuits := obedience_suits h hK
  have hP : Report.Stopped { halt := .cancelled } := rfl
  cases start with
  | root => exact walkMain_minds hsuits hP _ _
  | frontier nodes => exact walkMain_minds hsuits hP _ _
  | signal node pending signal => exact absurd rfl (hstart node pending signal)

/-- In a run that does not begin with a delivery, nothing but the work of steps comes after the run
is cancelled: what holds as long as it is not, and is kept by that work, holds after every turn. And
if the walk has ended by then, it has ended as cancelled. -/
theorem run_obeys (h : env.Uncancelling) (hK : env.StepsKeep d.graph K)
    (hcalm : ∀ s, env.cancelled s.2 = false → K s)
    (hstart : ∀ node pending signal, start ≠ .signal node pending signal) :
    (∀ rank s c, env.cancelled s.2 = false → (env.obedience K).Kept K Report.Stopped
      ((env.traverse d start).proceed (fun s => env.cancelled s.2) rank s c)) ∧
    ∀ context extra cancelled deadline board strand rest,
      Task.Of (env.run d start context extra) (.walking cancelled deadline board strand rest) →
      ∀ stopped moment ranks s c, K s → (env.obedience K).Kept K Report.Stopped
        (strand.turn (fun s => env.cancelled s.2) stopped moment ranks s c) := by
  have hstrict := obedience_strict hcalm
  have hobeys := traverse_obeys h hK hstart
  refine ⟨fun rank s c hs => hstrict.proceed hobeys hs rank c, ?_⟩
  intro context extra cancelled deadline board strand rest hof stopped moment ranks s c hs
  have hminds := hof.minds (run_minds rfl hobeys context extra)
  exact hstrict.turn stopped moment hminds.2.1 hs ranks c

/-- A step that has succeeded is entered into the books at once. -/
theorem settle_proceeds (env : Environment C H X ω) (stop : Board C H X × ω → Bool) (rank : Nat)
    (x : Board C H X × ω) (c : Clock) (node : NodeId) (s : Step C H) (next : Option NodeId)
    (startedAt : Timestamp) {r : StepResult} (n : Nat) (hr : r.outcome = .success) :
    ∃ v y, v.turn = .onward next.toList ∧ ∀ k : Visited → Walk (Board C H X × ω) Report,
      (env.settle node s next startedAt r n k).proceed stop rank x c =
        (k v).proceed stop rank y c := by
  unfold settle trackContextSize
  simp only [hr]
  by_cases htrack : env.options.trackContextSize = true
  · simp only [htrack, if_true]
    exact ⟨_, _, rfl, fun k => rfl⟩
  · simp only [htrack, if_false, Bool.false_eq_true]
    exact ⟨_, _, rfl, fun k => rfl⟩

/-- A delivery is different: if it ends in success without waiting, the run goes on to its end
whether it is cancelled by then or not. -/
theorem deliver_unheeded {node : NodeId} {n : Node C H} {s : Step C H} {signal : Signal}
    (hnode : d.graph.get? node = some n) (hs : n.step? = some s) (hnext : n.next = none)
    (hsave : ∀ c x, ∃ y, env.save c x = .ok y) {rank : Nat} {x y : Board C H X × ω} {c c' : Clock}
    {r : StepResult} (hx : env.cancelled x.2 = false)
    (hwork : (env.onBoard (s.onSignal signal)).proceed (fun s => env.cancelled s.2) rank x c =
      (.ended (.done r), y, c')) (hr : r.outcome = .success) :
    ∃ z, (env.traverse d (.signal node [] signal)).proceed (fun s => env.cancelled s.2) rank x c =
      (.ended { halt := .drained }, z, c') := by
  obtain ⟨v, z, hv, hsettle⟩ :=
    env.settle_proceeds (fun s => env.cancelled s.2) rank y c' node s n.next (env.wall x.2) 1 hr
  rw [hnext] at hv
  have hdeliver (k : Visited → Walk (Board C H X × ω) Report) :
      (env.deliver d.graph node signal k).proceed (fun s => env.cancelled s.2) rank x c =
        (k v).proceed (fun s => env.cancelled s.2) rank z c' := by
    rw [← hsettle k]
    unfold deliver
    simp only [hnode, hs]
    change Walk.proceed _ _ (.act id fun s' => .call none _ _) x c = _
    rw [Walk.proceed, Walk.proceed, if_neg (by simp [hx])]
    simp only [id, hwork]
    rfl
  unfold traverse
  rw [hdeliver]
  obtain ⟨y', hy'⟩ := hsave ⟨z.1.context, [], v.trace⟩ (z.1.extra, z.2)
  simp only [pass, Walk.proceed, hv, checkpoint, Piece.update]
  simp [hy', walkMain, Walk.proceed]

end Environment

end DurableWorkflow

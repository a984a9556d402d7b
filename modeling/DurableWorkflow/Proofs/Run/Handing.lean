import DurableWorkflow.Proofs.Run.Keeps
import DurableWorkflow.Proofs.Walk.Step

/-!
# Parts of a walk

What is left of work and of walks (`Leaves`), and the work that a walk has in hand (`Calling`).

`Until` says what a walk does before it comes to a walk of which `N` holds: its actions are all `I`,
it calls work of which `W` holds, it does not fork, and if it ends on the way it is with a report of
which `P` holds. A piece whose values are all `Q` leads there if every walk that goes on with a `Q`
does (`Piece.Leads`).
-/

namespace DurableWorkflow

variable {σ τ ω ρ α β : Type}

/-! ### What is left of a walk -/

/-- What is left of work after some steps, in whatever states they were taken. -/
def Work.Leaves : Work σ α → Work σ α → Prop :=
  Relation.ReflTransGen fun w v => ∃ s t, Work.Step (w, s) (v, t)

theorem Work.Leaves.keeps {I : σ → σ → Prop} {w v : Work σ α} (h : w.Leaves v) (hw : w.Keeps I) :
    v.Keeps I := by
  induction h with
  | refl => exact hw
  | tail _ hstep ih =>
    obtain ⟨s, t, hstep⟩ := hstep
    exact (Work.Keeps.step hstep ih).2

/-- What is left of a walk after some steps, and its own state by then, whatever others have made of
the world in between. -/
def Walk.Leaves : Walk (τ × ω) β × τ → Walk (τ × ω) β × τ → Prop :=
  Relation.ReflTransGen fun x y => ∃ w v, Walk.Step (x.1, x.2, w) (y.1, y.2, v)

theorem Walk.Leaves.keeps {I : τ × ω → τ × ω → Prop} {x y : Walk (τ × ω) β × τ}
    (h : Walk.Leaves x y) (hx : x.1.Keeps I) : y.1.Keeps I := by
  induction h with
  | refl => exact hx
  | tail _ hstep ih =>
    obtain ⟨w, v, hstep⟩ := hstep
    exact (Walk.Keeps.step hstep ih).2

/-- The walk has this work in hand, itself or in a branch. -/
inductive Walk.Calling : Walk σ ρ → Work σ StepResult → Prop
  | call (limit : Option Nanos) (work : Work σ StepResult) (rest : CallEnd → Walk σ ρ) :
    Calling (.call limit work rest) work
  | branch {branches : List (Walk σ ρ)} {w : Walk σ ρ} {work : Work σ StepResult}
      (rest : List ρ → Walk σ ρ) (hw : w ∈ branches) (h : Calling w work) :
    Calling (.fork branches rest) work

/-! ### The first part -/

inductive Walk.Until (P : ρ → Prop) (I : σ → σ → Prop) (W : Work σ StepResult → Prop)
    (N : Walk σ ρ → Prop) : Walk σ ρ → Prop
  | here {w : Walk σ ρ} (h : N w) : Until P I W N w
  | done {r : ρ} (h : P r) : Until P I W N (.done r)
  | act {f : σ → σ} {rest : σ → Walk σ ρ} (h : ∀ s, I s (f s))
      (hrest : ∀ s, Until P I W N (rest s)) : Until P I W N (.act f rest)
  | pause (d : Nanos) {rest : Bool → Walk σ ρ}
      (hrest : ∀ cancelled, Until P I W N (rest cancelled)) : Until P I W N (.pause d rest)
  | call (limit : Option Nanos) {work : Work σ StepResult} {rest : CallEnd → Walk σ ρ} (h : W work)
      (hrest : ∀ e, Until P I W N (rest e)) : Until P I W N (.call limit work rest)

variable {P : ρ → Prop} {I : σ → σ → Prop} {W : Work σ StepResult → Prop} {N : Walk σ ρ → Prop}

namespace Walk.Until

theorem step {w w' : Walk σ ρ} {s s' : σ} (h : w.Until P I W N)
    (hW : ∀ {work work' s s'}, W work → Work.Step (work, s) (work', s') →
      (s' = s ∨ I s s') ∧ W work')
    (hstep : Walk.Step (w, s) (w', s')) : N w ∨ (s' = s ∨ I s s') ∧ w'.Until P I W N := by
  cases h with
  | here h => exact .inl h
  | done => cases hstep
  | act h hrest =>
    cases hstep
    exact .inr ⟨.inr (h s), hrest s⟩
  | pause d hrest =>
    cases hstep
    exact .inr ⟨.inl rfl, hrest _⟩
  | call limit h hrest =>
    right
    cases hstep with
    | work hwork =>
      obtain ⟨hsame, hW'⟩ := hW h hwork
      exact ⟨hsame, .call limit hW' hrest⟩
    | done | crash | late | cancel => exact ⟨.inl rfl, hrest _⟩

/-- All the work that it has in hand is a `W`. -/
theorem calling {w : Walk σ ρ} {work : Work σ StepResult} (h : w.Until P I W N)
    (hN : ∀ w, N w → ¬w.Calling work) (hcalling : w.Calling work) : W work := by
  cases h with
  | here h => exact absurd hcalling (hN _ h)
  | call limit h =>
    cases hcalling
    exact h
  | done | act | pause => cases hcalling

end Walk.Until

/-- The piece comes to what follows with a `Q`. -/
def Piece.Leads (P : ρ → Prop) (I : σ → σ → Prop) (W : Work σ StepResult → Prop) (Q : α → Prop)
    (p : Piece σ ρ α) : Prop :=
  ∀ (N : Walk σ ρ → Prop) (k : α → Walk σ ρ), (∀ a, Q a → (k a).Until P I W N) →
    (p k).Until P I W N

namespace Piece.Leads

variable {Q : α → Prop} {S : β → Prop}

theorem pure {a : α} (h : Q a) : (Pure.pure a : Piece σ ρ α).Leads P I W Q := fun _ _ hk => hk a h

theorem bind {p : Piece σ ρ α} {f : α → Piece σ ρ β} (hp : p.Leads P I W Q)
    (hf : ∀ a, Q a → (f a).Leads P I W S) : (p >>= f).Leads P I W S := fun N k hk =>
  hp N _ fun a ha => hf a ha N k hk

theorem halt {r : ρ} (h : P r) : (Piece.halt r : Piece σ ρ α).Leads P I W Q := fun _ _ _ => .done h

theorem modify {f : σ → σ} (h : ∀ s, I s (f s)) :
    (Piece.modify f : Piece σ ρ Unit).Leads P I W fun _ => True := fun _ _ hk =>
  .act h fun _ => hk () trivial

theorem read (f : σ → α) (h : ∀ s, I s s) :
    (Piece.read f : Piece σ ρ α).Leads P I W fun _ => True := fun _ _ hk =>
  .act h fun s => hk (f s) trivial

theorem call (limit : Option Nanos) {work : Work σ StepResult} (h : W work) :
    (Piece.call limit work : Piece σ ρ CallEnd).Leads P I W fun _ => True := fun _ _ hk =>
  .call limit h fun e => hk e trivial

end Piece.Leads

end DurableWorkflow

/-!
### A run that begins with a signal

Such a run first hands the signal to the node that waits. Until the entry of that node is in the
books, the step of the node works on the signal and nothing else is called, and no checkpoint is
saved. After that the first entry of the books is the one of the node for good, and if the walk goes
on, the step has succeeded. `Handing` is this as an invariant of what is left of the walk and its
board, whatever others do to the world meanwhile.
-/

namespace DurableWorkflow

namespace Environment

variable {C H X ω : Type} {env : Environment C H X ω}

/-- The extra part of the board and the entries of the main walk stay, and the world changes by `A`.
-/
def Still (A : ω → ω → Prop) (s t : Board C H X × ω) : Prop :=
  t.1.extra = s.1.extra ∧ t.1.ledger.trace = s.1.ledger.trace ∧ A s.2 t.2

/-- Entries of the main walk are only added. -/
def Appends (s t : Board C H X × ω) : Prop := s.1.ledger.trace <+: t.1.ledger.trace

theorem within_appends (env : Environment C H X ω) (g : Graph C H) : env.Within g Appends where
  board b b' w h := by simp only [Appends, h.trace, List.prefix_refl]
  enter node s b w _ := List.prefix_refl _
  publish b e w _ := List.prefix_refl _
  memory b c h w := List.prefix_refl _
  note b l w := List.prefix_append _ _
  save c b w x w' _ := List.prefix_refl _

/-- What the delivery of a signal to a node hands on: the entry of the node, unless there is no step
to deliver it to. -/
def Handed (node : NodeId) (v : Visited) : Prop :=
  (∃ f, v.turn = .failed f) ∨
    ∃ e, v.trace = [e] ∧ e.node = node ∧ ∀ nodes, v.turn = .onward nodes → e.outcome = .succeeded

/-- What is left of the work of the step at the node on the signal. -/
def Answering (env : Environment C H X ω) (g : Graph C H) (node : NodeId) (signal : Signal)
    (work : Work (Board C H X × ω) StepResult) : Prop :=
  ∃ n s, g.get? node = some n ∧ n.step? = some s ∧ (env.onBoard (s.onSignal signal)).Leaves work

variable {A : ω → ω → Prop} {g : Graph C H} {node : NodeId} {signal : Signal}

theorem Answering.step {I : Board C H X × ω → Board C H X × ω → Prop} (h : env.Around g I)
    {work work' : Work (Board C H X × ω) StepResult} {s s' : Board C H X × ω}
    (hwork : env.Answering g node signal work) (hstep : Work.Step (work, s) (work', s')) :
    (s' = s ∨ I s s') ∧ env.Answering g node signal work' := by
  obtain ⟨n, step, hn, hs, hleaves⟩ := hwork
  have hkeeps : work.Keeps I := hleaves.keeps (onBoard_keeps h.memory _)
  exact ⟨(Work.Keeps.step hstep hkeeps).1, n, step, hn, hs, hleaves.tail ⟨s, s', hstep⟩⟩

section

variable {I : Board C H X × ω → Board C H X × ω → Prop}
  {W : Work (Board C H X × ω) StepResult → Prop}
  {P : Report → Prop}

theorem settle_leads (h : env.Around g I) {s : Step C H} (hs : (node, s) ∈ g.steps)
    (next : Option NodeId) (startedAt : Timestamp) (r : StepResult) (n : Nat) :
    (env.settle node s next startedAt r n).Leads P I W (Handed node) := by
  have hsame (s : Board C H X × ω) : I s s := h.board s.1 s.1 s.2 (.refl s.1)
  refine (Piece.Leads.read _ hsame).bind fun completedAt _ => ?_
  cases houtcome : r.outcome with
  | success =>
    refine .bind (.modify fun x => h.enter node s x.1 x.2 hs) fun _ _ => ?_
    refine .bind (.modify fun s => h.publish s.1 _ s.2 rfl) fun _ _ => ?_
    have htrack : env.trackContextSize.Leads P I W fun _ => True := by
      unfold trackContextSize
      split
      · refine .modify fun s => ?_
        simp only
        split
        · exact hsame s
        · exact h.board s.1 _ s.2 ⟨rfl, rfl, rfl, rfl⟩
      · exact .pure trivial
    exact htrack.bind fun _ _ => .pure (.inr ⟨_, rfl, rfl, fun _ _ => rfl⟩)
  | failure =>
    refine .bind (.modify fun s => h.board s.1 _ s.2 ⟨rfl, rfl, rfl, rfl⟩) fun _ _ => ?_
    exact .pure (.inl ⟨_, rfl⟩)
  | suspended signal limit => exact .pure (.inr ⟨_, rfl, rfl, fun _ hturn => by simp at hturn⟩)

theorem deliver_leads (h : env.Around g I) (node : NodeId) (signal : Signal) :
    (env.deliver g node signal).Leads Report.Stopped I (env.Answering g node signal)
      (Handed node) := by
  unfold deliver
  split
  · exact .pure (.inl ⟨_, rfl⟩)
  · next n hn =>
    split
    · exact .pure (.inl ⟨_, rfl⟩)
    · next s hs =>
      refine (Piece.Leads.read _ fun s => h.board s.1 s.1 s.2 (.refl s.1)).bind fun startedAt _ => ?_
      have hwork : env.Answering g node signal (env.onBoard (s.onSignal signal)) :=
        ⟨n, s, hn, hs, .refl⟩
      refine (Piece.Leads.call none hwork).bind fun ending _ => ?_
      cases ending with
      | finished r => exact settle_leads h (Graph.mem_steps hn hs) n.next startedAt r 1
      | crashed m => exact settle_leads h (Graph.mem_steps hn hs) n.next startedAt _ 1
      | timedOut | cancelled => exact .halt rfl

end

/-- The walk is about to enter what came of the delivery into the books. -/
def Receiving (env : Environment C H X ω) (node : NodeId)
    (path : Walk (Board C H X × ω) Report) : Prop :=
  ∃ ahead v next, Handed node v ∧
    (∀ nodes, (next nodes : Walk (Board C H X × ω) Report).Keeps Appends) ∧
    path = env.pass node ahead v next

/-- Where a walk stands that has begun with a signal for a node, and with `x` for the extra part of
the board. -/
inductive Handing (env : Environment C H X ω) (A : ω → ω → Prop) (g : Graph C H) (node : NodeId)
    (signal : Signal) (x : X) (path : Walk (Board C H X × ω) Report) (b : Board C H X) : Prop
  /-- The signal is being delivered. -/
  | coming (hextra : b.extra = x) (hbooks : b.ledger.trace = [])
      (hpath : path.Until Report.Stopped (Still A) (env.Answering g node signal)
        (env.Receiving node))
  /-- The node has been passed. -/
  | past {e : StepTrace} {l : List StepTrace} (hbooks : b.ledger.trace = e :: l)
      (hnode : e.node = node) (hdone : e.outcome = .succeeded) (hpath : path.Keeps Appends)
  /-- The walk ends at the node. -/
  | ending (hextra : b.extra = x)
      (hpath : path.Until (fun r => (∃ f, r.halt = .failed f) ∨
        (∃ s, r.halt = .suspended s) ∧ ∃ e l, b.ledger.trace = e :: l ∧ e.node = node)
        (Still A) (fun _ => False) fun _ => False)

/-- A walk that begins with a signal. -/
theorem traverse_handing {d : Definition C H} (h : env.Around d.graph (Still A)) (node : NodeId)
    (pending : List NodeId) (signal : Signal) (context : C) (x : X) :
    Handing env A d.graph node signal x (env.traverse d (.signal node pending signal))
      { context, extra := x } := by
  refine .coming rfl rfl (deliver_leads h node signal _ _ fun v hv => .here ?_)
  exact ⟨_, v, _, hv, fun nodes => walkMain_keeps (within_appends env d.graph) _ nodes, rfl⟩

namespace Handing

variable {x : X} {path path' : Walk (Board C H X × ω) Report} {b b' : Board C H X} {w w' : ω}

/-- What came of the delivery is entered. -/
theorem receive (g : Graph C H) (signal : Signal) 
    (hpublish : ∀ e w, e.what.isOfRun = true → A w (env.publish e w))
    (hextra : b.extra = x) (hbooks : b.ledger.trace = []) (hreceiving : env.Receiving node path)
    (hstep : Walk.Step (path, b, w) (path', b', w')) :
    Handing env A g node signal x path' b' ∧ b'.extra = b.extra ∧ w' = w := by
  obtain ⟨ahead, v, next, hhanded, hnext, rfl⟩ := hreceiving
  have hkeeps := pass_keeps (within_appends env g) node ahead v hnext
  unfold pass at hstep hkeeps
  cases hstep
  have hrest := (hkeeps (b, w)).2
  have htrace : b.ledger.trace ++ v.trace = v.trace := by rw [hbooks, List.nil_append]
  refine ⟨?_, rfl, rfl⟩
  cases hturn : v.turn with
  | onward nodes =>
    obtain ⟨f, hf⟩ | ⟨e, he, hnode, hdone⟩ := hhanded
    · rw [hturn] at hf
      simp at hf
    simp only [hturn] at hrest ⊢
    exact .past (htrace.trans he) hnode (hdone nodes hturn) hrest
  | failed f => exact .ending hextra (.done (.inl ⟨f, rfl⟩))
  | suspended signal' limit =>
    obtain ⟨f, hf⟩ | ⟨e, he, hnode, -⟩ := hhanded
    · rw [hturn] at hf
      simp at hf
    refine .ending hextra (.act (fun s => ⟨rfl, rfl, hpublish _ _ rfl⟩) fun _ => ?_)
    exact .done (.inr ⟨⟨_, rfl⟩, e, [], htrace.trans he, hnode⟩)

/-- A step leaves the extra part of the board and the world as they are, but for `A`, or the node
has been passed. -/
theorem step (h : env.Around g (Still A)) (hA : ∀ w, A w w)
    (hhanding : Handing env A g node signal x path b)
    (hstep : Walk.Step (path, b, w) (path', b', w')) :
    Handing env A g node signal x path' b' ∧
      (b'.extra = b.extra ∧ A w w' ∨
        ∃ e l, b.ledger.trace = e :: l ∧ e.node = node ∧ e.outcome = .succeeded) := by
  have hpublish (e : Event) (w : ω) (he : e.what.isOfRun = true) : A w (env.publish e w) :=
    (h.publish b e w he).2.2
  cases hhanding with
  | coming hextra hbooks hpath =>
    rcases hpath.step (Answering.step h) hstep with hreceiving | ⟨hsame, hpath'⟩
    · obtain ⟨hnext, hsame, hworld⟩ :=
        receive g signal hpublish hextra hbooks hreceiving hstep
      exact ⟨hnext, .inl ⟨hsame, hworld ▸ hA w'⟩⟩
    · obtain heq | ⟨hextra', hbooks', hworld⟩ := hsame
      · obtain ⟨rfl, rfl⟩ := Prod.mk.inj heq
        exact ⟨.coming hextra hbooks hpath', .inl ⟨rfl, hA _⟩⟩
      · exact ⟨.coming (hextra'.trans hextra) (hbooks'.trans hbooks) hpath', .inl ⟨hextra', hworld⟩⟩
  | @past e l hbooks hnode hdone hpath =>
    obtain ⟨hsame, hpath'⟩ := Walk.Keeps.step hstep hpath
    refine ⟨?_, .inr ⟨_, _, hbooks, hnode, hdone⟩⟩
    obtain heq | hmore := hsame
    · obtain ⟨rfl, rfl⟩ := Prod.mk.inj heq
      exact .past hbooks hnode hdone hpath'
    · obtain ⟨more, hmore⟩ := hmore
      have hbooks' : b'.ledger.trace = e :: (l ++ more) := by
        rw [← hmore, hbooks, List.cons_append]
      exact .past hbooks' hnode hdone hpath'
  | ending hextra hpath =>
    obtain hnone | ⟨hsame, hpath'⟩ := hpath.step (fun hnone => hnone.elim) hstep
    · exact hnone.elim
    · obtain heq | ⟨hextra', hbooks', hworld⟩ := hsame
      · obtain ⟨rfl, rfl⟩ := Prod.mk.inj heq
        exact ⟨.ending hextra hpath', .inl ⟨rfl, hA _⟩⟩
      · refine ⟨.ending (hextra'.trans hextra) ?_, .inl ⟨hextra', hworld⟩⟩
        rw [hbooks']
        exact hpath'

/-- However long the walk has gone on. -/
theorem leaves (h : env.Around g (Still A)) (hA : ∀ w, A w w)
    (hhanding : Handing env A g node signal x path b)
    (hleaves : Walk.Leaves (path, b) (path', b')) :
    Handing env A g node signal x path' b' := by
  have hall : ∀ {y z : Walk (Board C H X × ω) Report × Board C H X}, Walk.Leaves y z →
      Handing env A g node signal x y.1 y.2 → Handing env A g node signal x z.1 z.2 := by
    intro y z hyz hy
    induction hyz with
    | refl => exact hy
    | tail _ hstep ih =>
      obtain ⟨w, v, hstep⟩ := hstep
      exact (step h hA ih hstep).1
  exact hall hleaves hhanding

/-- A walk that has come to an end or waits has the entry of the node in its books. -/
theorem answered {r : Report} (h : Handing env A g node signal x (.done r) b)
    (hr : r.halt = .drained ∨ ∃ s, r.halt = .suspended s) :
    ∃ e l, b.ledger.trace = e :: l ∧ e.node = node := by
  cases h with
  | coming _ _ hpath =>
    cases hpath with
    | here h =>
      obtain ⟨ahead, v, next, -, -, hpass⟩ := h
      cases hpass
    | done hstopped =>
      have hcancelled : r.halt = .cancelled := by
        simpa [Report.Stopped, Report.isCancelled] using hstopped
      rw [hcancelled] at hr
      simp at hr
  | past hbooks hnode => exact ⟨_, _, hbooks, hnode⟩
  | ending _ hpath =>
    cases hpath with
    | here h => exact h.elim
    | done h =>
      obtain ⟨f, hf⟩ | ⟨-, hbooks⟩ := h
      · rw [hf] at hr
        simp at hr
      · exact hbooks

/-- Until the entry of the node is in the books, only the step of the node works, on the signal. -/
theorem calling (h : Handing env A g node signal x path b) (hbooks : b.ledger.trace = [])
    {work : Work (Board C H X × ω) StepResult} (hcalling : path.Calling work) :
    env.Answering g node signal work := by
  cases h with
  | coming _ _ hpath =>
    refine hpath.calling (fun w hw hcalling => ?_) hcalling
    obtain ⟨ahead, v, next, -, -, rfl⟩ := hw
    cases hcalling
  | past hmore =>
    rw [hbooks] at hmore
    simp at hmore
  | ending _ hpath => exact (hpath.calling (fun _ hnone => hnone.elim) hcalling).elim

end Handing

end Environment

end DurableWorkflow

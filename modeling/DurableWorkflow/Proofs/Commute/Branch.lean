import DurableWorkflow.Proofs.Commute.Plot
import DurableWorkflow.Proofs.Commute.Turns
import DurableWorkflow.Proofs.Graph.Flow
import DurableWorkflow.Proofs.Reading.Basic
import DurableWorkflow.Proofs.Run.Alike
import Mathlib.Algebra.Order.Group.Multiset

/-!
# Plots of branches

The plot of a branch of a graph: what the steps do to the state that they see, what they leave in
the books, and whether the branch comes to its end without a failure. All that does not matter to
other branches is left out: clocks, events, counts, and the order in the books.

Steps are independent if no action of the one reads or overwrites what an action of the other
changes. Where that holds of all that can be reached from different children of a block, the plot
of the block is orderly (`Graph.plot_orderly`).
-/

namespace DurableWorkflow

variable {C H M : Type}

/-! ### Independent steps -/

/-- The action `f` is done somewhere in the work. -/
inductive Work.Does {σ α : Type} (f : σ → σ) : Work σ α → Prop
  | here (rest : σ → Work σ α) : Does f (.act f rest)
  | later {g : σ → σ} {rest : σ → Work σ α} (s : σ) (h : Does f (rest s)) : Does f (.act g rest)
  | slept (d : Nanos) {rest : Work σ α} (h : Does f rest) : Does f (.sleep d rest)
  | waited {rest : Work σ α} (h : Does f rest) : Does f (.awaitCancel rest)

/-- No action of the work reads or overwrites what `k` changes: it commutes with `k`, and what the
work goes on to do does not depend on whether `k` has been done. -/
inductive Work.Ignores {σ α : Type} (k : σ → σ) : Work σ α → Prop
  | done (a : α) : Ignores k (.done a)
  | crash (m : String) : Ignores k (.crash m)
  | act {f : σ → σ} {rest : σ → Work σ α} (hf : ∀ s, f (k s) = k (f s))
    (hrest : ∀ s, rest (k s) = rest s) (h : ∀ s, Ignores k (rest s)) : Ignores k (.act f rest)
  | sleep (d : Nanos) {rest : Work σ α} (h : Ignores k rest) : Ignores k (.sleep d rest)
  | awaitCancel {rest : Work σ α} (h : Ignores k rest) : Ignores k (.awaitCancel rest)

/-- Work on the state and the memory looks like the work `v`, if no more of the memory is seen than
`see` tells. -/
inductive Work.Seen {H M α : Type} (see : H → M) : Work (C × H) α → Work (C × M) α → Prop
  | done (a : α) : Seen see (.done a) (.done a)
  | crash (m : String) : Seen see (.crash m) (.crash m)
  | act {f : C × H → C × H} {f' : C × M → C × M} {rest : C × H → Work (C × H) α}
    {rest' : C × M → Work (C × M) α} (hf : ∀ x, ((f x).1, see (f x).2) = f' (x.1, see x.2))
    (h : ∀ x, Seen see (rest x) (rest' (x.1, see x.2))) : Seen see (.act f rest) (.act f' rest')
  | sleep (d : Nanos) {rest : Work (C × H) α} {rest' : Work (C × M) α} (h : Seen see rest rest') :
    Seen see (.sleep d rest) (.sleep d rest')
  | awaitCancel {rest : Work (C × H) α} {rest' : Work (C × M) α} (h : Seen see rest rest') :
    Seen see (.awaitCancel rest) (.awaitCancel rest')

/-- A way to look at steps: what of the memory is seen, and what each step then looks like. -/
structure Aspect (C H M : Type) where
  see : H → M
  work : Step C H → Work (C × M) StepResult

/-- What the work does to the context, if it finds `h` in the memory. -/
def Work.onContext {α : Type} (h : H) : Work (C × H) α → Work (C × Unit) α
  | .done a => .done a
  | .crash m => .crash m
  | .act f rest => .act (fun x => ((f (x.1, h)).1, ())) fun x => onContext h (rest (x.1, h))
  | .sleep d rest => .sleep d (onContext h rest)
  | .awaitCancel rest => .awaitCancel (onContext h rest)

namespace Aspect

/-- All of the memory is seen. -/
def full (C H : Type) : Aspect C H H := ⟨id, Step.execute⟩

/-- Nothing of the memory is seen, in which steps might find `h`. -/
def context (C : Type) {H : Type} (h : H) : Aspect C H Unit :=
  ⟨fun _ => (), fun s => s.execute.onContext h⟩

end Aspect

theorem Work.seen_full {α : Type} (work : Work (C × H) α) : work.Seen id work := by
  induction work with
  | done a => exact .done a
  | crash m => exact .crash m
  | act f rest ih => exact .act (fun _ => rfl) ih
  | sleep d rest ih => exact .sleep d ih
  | awaitCancel rest ih => exact .awaitCancel ih

namespace Node

variable (a : Aspect C H M) (n : Node C H)

/-- The step at the node does the action `f`. -/
def Does (f : C × M → C × M) : Prop := ∃ s, n.kind = .step s ∧ (a.work s).Does f

/-- Neither the step nor the condition at the node has to do with what `k` changes. -/
def Ignores (k : C × M → C × M) : Prop :=
  match n.kind with
  | .step s => (a.work s).Ignores k
  | .conditional holds _ _ => ∀ x, holds (k x).1 = holds x.1
  | _ => True

/-- The step at the node is what it looks like. -/
def Seen : Prop := ∀ s, n.kind = .step s → s.execute.Seen a.see (a.work s)

theorem seen_full : n.Seen (.full C H) := fun s _ => s.execute.seen_full

end Node

namespace Graph

variable (g : Graph C H) (a : Aspect C H M)

/-- What can be reached from the one node ignores what is done at nodes that can be reached from
the other. -/
def Independent (b c : NodeId) : Prop :=
  ∀ x y n m, Relation.ReflTransGen g.Names b x → Relation.ReflTransGen g.Names c y →
    g.get? x = some n → g.get? y = some m →
    (∀ f, n.Does a f → m.Ignores a f) ∧ ∀ f, m.Does a f → n.Ignores a f

/-- The branches from these nodes are independent, and so are those of the blocks within them. -/
structure Concurrent (children : List NodeId) : Prop where
  own : children.Pairwise (g.Independent a)
  nested : ∀ c ∈ children, ∀ x n inner, Relation.ReflTransGen g.Names c x → g.get? x = some n →
    n.kind = .parallel inner → inner.Pairwise (g.Independent a)
  seen : ∀ c ∈ children, ∀ x n, Relation.ReflTransGen g.Names c x → g.get? x = some n → n.Seen a

end Graph

/-! ### Plots -/

/-- Nodes with steps that can be undone, in whatever order. -/
abbrev Undoables (C H : Type) := Multiset (NodeId × Step C H)

/-- What branches leave behind: the state as it is seen, the steps to undo, and the entries. -/
@[ext]
structure Harvest (C H M : Type) where
  state : C × M
  completed : Undoables C H
  entries : Multiset Gist

/-- Change the state, and add to the books. -/
def Harvest.change (f : C × M → C × M) (completed : Undoables C H)
    (entries : Multiset Gist) (t : Harvest C H M) : Harvest C H M :=
  ⟨f t.state, t.completed + completed, t.entries + entries⟩

/-- Put something into the books. -/
abbrev Harvest.note (completed : Undoables C H) (entries : Multiset Gist) :
    Harvest C H M → Harvest C H M := .change id completed entries

section

variable (pass : Nanos → Nanos → Option Nanos) (a : Aspect C H M)

/-- The call of a step. -/
def Work.plot (k : CallEnd → Plot (Harvest C H M)) :
    Option Nanos → Work (C × M) StepResult → Plot (Harvest C H M)
  | _, .done r => k (.finished r)
  | _, .crash m => k (.crashed m)
  | limit, .act f rest => .act (.change f 0 0) fun t => plot k limit (rest t.state)
  | limit, .sleep d rest =>
    match remaining pass limit d with
    | some limit => plot k limit rest
    | none => k .timedOut
  | none, .awaitCancel _ => .done false
  | some _, .awaitCancel _ => k .timedOut

namespace Step

/-- What an attempt comes to that is not cancelled. -/
def result (s : Step C H) : CallEnd → StepResult
  | .finished r => r
  | .crashed m => .failure (.panicked m)
  | .timedOut | .cancelled => .retryable (.timedOut s.name (s.limit.getD 0))

/-- The attempts at a step, of which `attempt` is the next and `spare` more may follow. -/
def plotAttempts (s : Step C H) (policy : RetryPolicy)
    (k : StepResult → Nat → Plot (Harvest C H M)) : Nat → Nat → Plot (Harvest C H M)
  | 0, attempt => (a.work s).plot pass (fun e => k (s.result e) attempt) s.limit
  | spare + 1, attempt =>
    (a.work s).plot pass (fun e =>
      if s.mayRepeat policy attempt (s.result e).outcome then
        plotAttempts s policy k spare (attempt + 1)
      else k (s.result e) attempt) s.limit

def gist (s : Step C H) (node : NodeId) (r : StepResult) (attempts : Nat) : Gist :=
  (s.name, node, r.outcome.toTrace, attempts)

/-- The step with the record for undoing it, if it can be undone. -/
def undoable (s : Step C H) (node : NodeId) : List (NodeId × Step C H) :=
  if s.compensates then [(node, s)] else []

/-- The end of a step. -/
def plotEnd (s : Step C H) (node : NodeId) (onward : Plot (Harvest C H M)) (r : StepResult)
    (attempts : Nat) : Plot (Harvest C H M) :=
  .act (.note 0 {s.gist node r attempts}) fun _ =>
    match r.outcome with
    | .success => .act (.note (s.undoable node) 0) fun _ => onward
    | _ => .done false

end Step

/-- A choice that has been decided. -/
def plotVerdict (onward : List NodeId → Plot (Harvest C H M)) (t e next : Option NodeId) :
    Except String Bool → Plot (Harvest C H M)
  | .ok b => onward ((if b then t else e).or next).toList
  | .error _ => .done false

/-- A node, with `onward` for the nodes that flow goes on to. -/
def Node.plot (retry : RetryPolicy) (branch : NodeId → Plot (Harvest C H M))
    (onward : List NodeId → Plot (Harvest C H M)) (node : NodeId) (n : Node C H) :
    Plot (Harvest C H M) :=
  match n.kind with
  | .step s =>
    let policy := s.retryPolicy.getD retry
    s.plotAttempts pass a policy (s.plotEnd node (onward n.next.toList))
      (policy.maxAttempts - 1) 1
  | .sequence children => onward (children ++ n.next.toList)
  | .conditional holds t e =>
    .act (.note 0 0) fun s => plotVerdict onward t e n.next (holds s.state.1)
  | .parallel children => .fork (children.map branch) (onward n.next.toList)
  | .delay _ => onward n.next.toList

/-- A branch that has these nodes still to visit. -/
def Graph.plot (retry : RetryPolicy) (g : Graph C H) : Nat → List NodeId → Plot (Harvest C H M)
  | _, [] => .done true
  | 0, _ :: _ => .done false
  | fuel + 1, node :: ahead =>
    match g.get? node with
    | none => .done false
    | some n =>
      n.plot pass a retry (fun child => g.plot retry fuel [child])
        (fun next => g.plot retry fuel (next ++ ahead)) node

end

/-! ### What plots do and ignore -/

section

variable {k l : C × M → C × M} {c d : Undoables C H} {e e' : Multiset Gist}

theorem Harvest.change_comm (h : ∀ s, l (k s) = k (l s)) (t : Harvest C H M) :
    (t.change k c e).change l d e' = (t.change l d e').change k c e := by
  ext1
  · exact h t.state
  · exact add_right_comm _ _ _
  · exact add_right_comm _ _ _

theorem Work.Ignores.id {σ α : Type} (work : Work σ α) : work.Ignores id := by
  induction work with
  | done a => exact .done a
  | crash m => exact .crash m
  | act f rest ih => exact .act (fun _ => rfl) (fun _ => rfl) ih
  | sleep d rest ih => exact .sleep d ih
  | awaitCancel rest ih => exact .awaitCancel ih

theorem Node.Ignores.id (a : Aspect C H M) (n : Node C H) : n.Ignores a id := by
  unfold Node.Ignores
  split
  · exact .id _
  · exact fun _ => rfl
  · trivial

end

section

variable {pass : Nanos → Nanos → Option Nanos} {A : (Harvest C H M → Harvest C H M) → Prop}
  {a : Aspect C H M} {f : C × M → C × M} {undo : Undoables C H} {noted : Multiset Gist}

/-! One induction for each part of a plot, for whatever is said of plots. -/

section

variable {P : Plot (Harvest C H M) → Prop}

theorem Work.plot_of {Q : Work (C × M) StepResult → Prop} {k : CallEnd → Plot (Harvest C H M)}
    (hdone : P (.done false)) (hsleep : ∀ d rest, Q (.sleep d rest) → Q rest)
    (hact : ∀ f rest, Q (.act f rest) → (∀ s, Q (rest s)) ∧
      ∀ l : Work (C × M) StepResult → Plot (Harvest C H M), (∀ s, P (l (rest s))) →
        P (.act (.change f 0 0) fun t => l (rest t.state)))
    {work : Work (C × M) StepResult} (hwork : Q work) (hk : ∀ e, P (k e)) (limit : Option Nanos) :
    P (work.plot pass k limit) := by
  induction work generalizing limit with
  | done r => exact hk _
  | crash m => exact hk _
  | act f rest ih =>
    obtain ⟨hrest, hP⟩ := hact f rest hwork
    exact hP _ fun s => ih s (hrest s) limit
  | sleep d rest ih =>
    rw [plot]
    split
    · exact ih (hsleep d rest hwork) _
    · exact hk _
  | awaitCancel rest =>
    cases limit with
    | none => exact hdone
    | some l => exact hk _

theorem Step.plotAttempts_of {s : Step C H} {k : StepResult → Nat → Plot (Harvest C H M)}
    (hcall : ∀ l, (∀ e, P (l e)) → P ((a.work s).plot pass l s.limit)) (hk : ∀ r n, P (k r n))
    (policy : RetryPolicy) (spare attempt : Nat) :
    P (s.plotAttempts pass a policy k spare attempt) := by
  induction spare generalizing attempt with
  | zero => exact hcall _ fun e => hk _ _
  | succ spare ih =>
    refine hcall _ fun e => ?_
    split
    · exact ih (attempt + 1)
    · exact hk _ _

theorem Node.plot_of {n : Node C H} {retry : RetryPolicy}
    {branch : NodeId → Plot (Harvest C H M)} {onward : List NodeId → Plot (Harvest C H M)}
    (hdone : P (.done false)) (hnote : ∀ c e p, P p → P (.act (.note c e) fun _ => p))
    (hcall : ∀ s, n.kind = .step s → ∀ l, (∀ e, P (l e)) → P ((a.work s).plot pass l s.limit))
    (hread : ∀ holds t e, n.kind = .conditional holds t e →
      ∀ l : Except String Bool → Plot (Harvest C H M), (∀ v, P (l v)) →
        P (.act (.note 0 0) fun s => l (holds s.state.1)))
    (hfork : ∀ children, n.kind = .parallel children → ∀ p, P p →
      P (.fork (children.map branch) p))
    (honward : ∀ next, n.Onward next → P (onward next)) (node : NodeId) :
    P (n.plot pass a retry branch onward node) := by
  unfold Node.plot
  cases hkind : n.kind with
  | step s =>
    have hnext : P (onward n.next.toList) := honward _ (by simp only [Node.Onward, hkind])
    refine Step.plotAttempts_of (hcall s hkind) (fun r n => hnote _ _ _ ?_) _ _ _
    split
    · exact hnote _ _ _ hnext
    · exact hdone
  | sequence children => exact honward _ (by simp only [Node.Onward, hkind])
  | conditional holds t e =>
    refine hread holds t e hkind _ fun v => ?_
    cases v with
    | ok b => exact honward _ (by cases b <;> simp [Node.Onward, hkind])
    | error m => exact hdone
  | parallel children =>
    exact hfork children hkind _ (honward _ (by simp only [Node.Onward, hkind]))
  | delay d => exact honward _ (by simp only [Node.Onward, hkind])

end

theorem Work.plot_within {work : Work (C × M) StepResult} {k : CallEnd → Plot (Harvest C H M)}
    (hwork : ∀ f, work.Does f → A (.change f 0 0)) (hk : ∀ e, (k e).Within A)
    (limit : Option Nanos) : (work.plot pass k limit).Within A := by
  let Q (work : Work (C × M) StepResult) : Prop := ∀ f, work.Does f → A (.change f 0 0)
  have hsleep (d : Nanos) (rest : Work (C × M) StepResult) (h : Q (.sleep d rest)) : Q rest :=
    fun f hf => h f (.slept d hf)
  refine plot_of (.done false) hsleep (fun f rest h => ?_) hwork hk limit
  exact ⟨fun s g hg => h g (.later s hg), fun l hl => .act (h f (.here rest)) fun t => hl t.state⟩

theorem Work.plot_ignores {work : Work (C × M) StepResult} {k : CallEnd → Plot (Harvest C H M)}
    (hwork : work.Ignores f) (hk : ∀ r, (k r).Ignores (.change f undo noted))
    (limit : Option Nanos) : (work.plot pass k limit).Ignores (.change f undo noted) := by
  refine plot_of (Q := Work.Ignores f) (.done false) (fun d rest h => ?_) (fun g rest h => ?_)
    hwork hk limit
  · cases h with
    | sleep _ h => exact h
  · cases h with
    | act hg hrest h =>
      refine ⟨h, fun l hl => .act (Harvest.change_comm hg) (fun t => ?_) fun t => hl t.state⟩
      exact congrArg l (hrest t.state)

theorem Work.plot_orderly (work : Work (C × M) StepResult) {k : CallEnd → Plot (Harvest C H M)}
    (hk : ∀ e, (k e).Orderly) (limit : Option Nanos) : (work.plot pass k limit).Orderly :=
  plot_of (Q := fun _ => True) (.done false) (fun _ _ _ => trivial)
    (fun _ _ _ => ⟨fun _ => trivial, fun _ hl => .act fun t => hl t.state⟩) trivial hk limit

namespace Graph

variable {g : Graph C H} {retry : RetryPolicy} {nodes : List NodeId}

/-- Some node of the stack leads to the node. -/
def Ahead (g : Graph C H) (nodes : List NodeId) (x : NodeId) : Prop :=
  ∃ a ∈ nodes, Relation.ReflTransGen g.Names a x

theorem Ahead.onward {node x : NodeId} {ahead next : List NodeId} {n : Node C H}
    (hn : g.get? node = some n) (hnext : n.Onward next) (hx : g.Ahead (next ++ ahead) x) :
    g.Ahead (node :: ahead) x := by
  obtain ⟨a, ha, hx⟩ := hx
  rcases List.mem_append.1 ha with ha | ha
  · exact ⟨node, List.mem_cons_self, .head ⟨n, hn, hnext.links ha⟩ hx⟩
  · exact ⟨a, List.mem_cons_of_mem _ ha, hx⟩

theorem Ahead.child {node child x : NodeId} {ahead children : List NodeId} {n : Node C H}
    (hn : g.get? node = some n) (hkind : n.kind = .parallel children) (hchild : child ∈ children)
    (hx : g.Ahead [child] x) : g.Ahead (node :: ahead) x := by
  obtain ⟨a, ha, hx⟩ := hx
  obtain rfl := List.mem_singleton.1 ha
  refine ⟨node, List.mem_cons_self, .head ⟨n, hn, ?_⟩ hx⟩
  simp only [Node.links, hkind, NodeKind.children, List.mem_append]
  exact .inr (.inr hchild)

theorem plot_within (hnote : ∀ c e, A (.note c e)) (fuel : Nat)
    (h : ∀ x n, g.Ahead nodes x → g.get? x = some n → ∀ f, n.Does a f → A (.change f 0 0)) :
    (g.plot pass a retry fuel nodes).Within A := by
  induction fuel generalizing nodes with
  | zero => cases nodes <;> exact .done _
  | succ fuel ih =>
    cases nodes with
    | nil => exact .done true
    | cons node ahead =>
      rw [plot]
      cases hn : g.get? node with
      | none => exact .done false
      | some n =>
        refine Node.plot_of (.done false) (fun c e p hp => .act (hnote c e) fun _ => hp)
          (fun s hkind l hl => ?_) (fun holds t e _ l hl => .act (hnote 0 0) fun s => hl _)
          (fun children hkind p hp => ?_) (fun next hnext => ?_) node
        · refine Work.plot_within (fun f hf => ?_) hl s.limit
          exact h node n ⟨node, List.mem_cons_self, .refl⟩ hn f ⟨s, hkind, hf⟩
        · refine .fork (List.forall_mem_map.2 fun child hchild => ?_) hp
          exact ih fun x m hx => h x m (hx.child hn hkind hchild)
        · exact ih fun x m hx => h x m (hx.onward hn hnext)

theorem plot_ignores (fuel : Nat)
    (h : ∀ x n, g.Ahead nodes x → g.get? x = some n → n.Ignores a f) :
    (g.plot pass a retry fuel nodes).Ignores (.change f undo noted) := by
  induction fuel generalizing nodes with
  | zero => cases nodes <;> exact .done _
  | succ fuel ih =>
    cases nodes with
    | nil => exact .done true
    | cons node ahead =>
      rw [plot]
      cases hn : g.get? node with
      | none => exact .done false
      | some n =>
        have hignores := h node n ⟨node, List.mem_cons_self, .refl⟩ hn
        unfold Node.Ignores at hignores
        refine Node.plot_of (.done false)
          (fun c e p hp => .act (Harvest.change_comm fun _ => rfl) (fun _ => rfl) fun _ => hp)
          (fun s hkind l hl => ?_) (fun holds t e hkind l hl => ?_)
          (fun children hkind p hp => ?_) (fun next hnext => ?_) node
        · rw [hkind] at hignores
          exact Work.plot_ignores hignores hl s.limit
        · rw [hkind] at hignores
          refine .act (Harvest.change_comm fun _ => rfl) (fun s => ?_) fun s => hl _
          exact congrArg l (hignores s.state)
        · refine .fork (List.forall_mem_map.2 fun child hchild => ?_) hp
          exact ih fun x m hx => h x m (hx.child hn hkind hchild)
        · exact ih fun x m hx => h x m (hx.onward hn hnext)

theorem Independent.apart {b c : NodeId} (h : g.Independent a b c) (fuel : Nat) :
    (g.plot pass a retry fuel [b]).Apart (g.plot pass a retry fuel [c]) := by
  -- What is done on the one side, whatever is noted beside it.
  let A (b : NodeId) (k : Harvest C H M → Harvest C H M) : Prop :=
    ∃ f undo noted, k = .change f undo noted ∧
      (f = id ∨ ∃ x n, Relation.ReflTransGen g.Names b x ∧ g.get? x = some n ∧ n.Does a f)
  have hwithin (b : NodeId) : (g.plot pass a retry fuel [b]).Within (A b) := by
    refine plot_within (fun undo noted => ⟨_, undo, noted, rfl, .inl rfl⟩) fuel
      fun x n hx hn f hf => ?_
    obtain ⟨b', hb, hx⟩ := hx
    obtain rfl := List.mem_singleton.1 hb
    exact ⟨f, 0, 0, rfl, .inr ⟨x, n, hx, hn, hf⟩⟩
  refine ⟨A b, A c, hwithin b, hwithin c, fun k hk => ?_, fun k hk => ?_⟩
  all_goals
    obtain ⟨f, undo, noted, rfl, hf⟩ := hk
    refine plot_ignores fuel fun y m hy hm => ?_
    obtain ⟨c', hc, hy⟩ := hy
    obtain rfl := List.mem_singleton.1 hc
    rcases hf with rfl | ⟨x, n, hx, hn, hf⟩
    · exact .id a m
  · exact (h x y n m hx hy hn hm).1 f hf
  · exact (h y x m n hy hx hm hn).2 f hf

theorem plot_orderly (fuel : Nat)
    (h : ∀ x n children, g.Ahead nodes x → g.get? x = some n → n.kind = .parallel children →
      children.Pairwise (g.Independent a)) : (g.plot pass a retry fuel nodes).Orderly := by
  induction fuel generalizing nodes with
  | zero => cases nodes <;> exact .done _
  | succ fuel ih =>
    cases nodes with
    | nil => exact .done true
    | cons node ahead =>
      rw [plot]
      cases hn : g.get? node with
      | none => exact .done false
      | some n =>
        refine Node.plot_of (.done false) (fun c e p hp => .act fun _ => hp)
          (fun s hkind l hl => Work.plot_orderly (a.work s) hl s.limit)
          (fun holds t e hkind l hl => .act fun s => hl _)
          (fun children hkind p hp => ?_) (fun next hnext => ?_) node
        · have hown := h node n children ⟨node, List.mem_cons_self, .refl⟩ hn hkind
          refine .fork (List.forall_mem_map.2 fun child hchild => ?_)
            (List.pairwise_map.2 (hown.imp fun hab => hab.apart fuel)) hp
          exact ih fun x m inner hx => h x m inner (hx.child hn hkind hchild)
        · exact ih fun x m inner hx => h x m inner (hx.onward hn hnext)

/-- The plot of a block whose branches are independent. -/
theorem Concurrent.orderly {children : List NodeId} (h : g.Concurrent a children) (fuel : Nat) :
    (Plot.fork (children.map fun child => g.plot pass a retry fuel [child])
      (.done true)).Orderly := by
  refine .fork (List.forall_mem_map.2 fun child hchild => ?_) ?_ (.done true)
  · refine plot_orderly fuel fun x n inner hx hn hkind => ?_
    obtain ⟨a, ha, hx⟩ := hx
    obtain rfl := List.mem_singleton.1 ha
    exact h.nested a hchild x n inner hx hn hkind
  · exact List.pairwise_map.2 (h.own.imp fun hab => hab.apart fuel)

end Graph

end

end DurableWorkflow

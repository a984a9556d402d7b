import DurableWorkflow.Coordinator.Basic
import DurableWorkflow.Proofs.Course.Watch
import DurableWorkflow.Proofs.Graph.Tract
import DurableWorkflow.Proofs.Journal.Repository
import DurableWorkflow.Proofs.Run.Keeps

/-!
# Definitions that note their calls

What is asked of the steps of a definition can be noted: every step, told at which node it is, first
notes whether it is to execute or to take a signal, and then does its work, which cannot see the
notes (`Definition.noted`). The graph keeps its shape, so whatever is said of the shape of a built
definition is true of it with notes, too.
-/

namespace DurableWorkflow

/-- What a step can be asked for. -/
inductive Asked where
  | execute
  | reply
  deriving DecidableEq, Repr

/-- What has been asked of which node, the latest last. -/
abbrev Asks := List (Nat × Asked)

variable {C H X ω : Type}

/-- Work that cannot see the notes. -/
def Work.unaware {α : Type} (work : Work (C × H) α) : Work (C × H × Asks) α :=
  work.zoom (fun s => (s.1, s.2.1)) fun t s => (t.1, t.2, s.2.2)

/-- Note first what is asked. -/
def Work.noting {α : Type} (node : Nat) (asked : Asked) (work : Work (C × H) α) :
    Work (C × H × Asks) α :=
  .act (fun s => (s.1, s.2.1, s.2.2 ++ [(node, asked)])) fun _ => work.unaware

def Step.noted (node : Nat) (s : Step C H) : Step C (H × Asks) :=
  { s with
    execute := s.execute.noting node .execute
    onSignal := fun signal => (s.onSignal signal).noting node .reply
    compensate := s.compensate.map Work.unaware }

def NodeKind.noted (node : Nat) : NodeKind C H → NodeKind C (H × Asks)
  | step s => step (s.noted node)
  | sequence children => sequence children
  | conditional holds t e => conditional holds t e
  | parallel children => parallel children
  | delay d => delay d

def Node.noted (node : Nat) (n : Node C H) : Node C (H × Asks) := ⟨n.kind.noted node, n.next⟩

/-- The same definition, with notes of what is asked of its steps. -/
def Definition.noted (d : Definition C H) : Definition C (H × Asks) :=
  { d with graph := ⟨d.graph.nodes.mapIdx Node.noted⟩ }

/-! ### The shape is kept -/

theorem Node.like_noted (id : Nat) (n : Node C H) : n.Like (n.noted id) := by
  obtain ⟨kind, next⟩ := n
  cases kind with
  | step s =>
    refine ⟨rfl, rfl, rfl, by simp [noted, NodeKind.noted], fun s' hs' => ⟨s, rfl, ?_⟩⟩
    cases hs'
    rfl
  | parallel children =>
    refine ⟨rfl, rfl, rfl, fun cs hcs => ?_, by simp [noted, NodeKind.noted, step?]⟩
    cases hcs
    rfl
  | sequence | conditional | delay =>
    exact ⟨rfl, rfl, rfl, by simp [noted, NodeKind.noted], by simp [noted, NodeKind.noted, step?]⟩

namespace Definition

variable {d : Definition C H}

theorem get_noted (d : Definition C H) (id : Nat) :
    d.noted.graph.get? id = (d.graph.get? id).map (Node.noted id) := Array.getElem?_mapIdx

theorem like_noted (d : Definition C H) : d.graph.Like d.noted.graph where
  size := Array.size_mapIdx
  node id n' hn' := by
    rw [get_noted] at hn'
    obtain ⟨n, hn, rfl⟩ := Option.map_eq_some_iff.1 hn'
    exact ⟨n, hn, n.like_noted id⟩

theorem Orderly.noted (h : d.Orderly) : d.noted.Orderly := h.like d.like_noted rfl

theorem step_noted {id : Nat} {n : Node C (H × Asks)} {s : Step C (H × Asks)}
    (hn : d.noted.graph.get? id = some n) (hkind : n.kind = .step s) :
    ∃ s₀, s = Step.noted id s₀ := by
  rw [get_noted] at hn
  obtain ⟨⟨kind, next⟩, -, rfl⟩ := Option.map_eq_some_iff.1 hn
  cases kind with
  | step s₀ => exact ⟨s₀, (NodeKind.step.inj hkind).symm⟩
  | sequence | conditional | parallel | delay => simp [Node.noted, NodeKind.noted] at hkind

theorem steps_noted {x : NodeId × Step C (H × Asks)} (hx : x ∈ d.noted.graph.steps) :
    ∃ s₀, x.2 = Step.noted x.1 s₀ := by
  obtain ⟨⟨n, id⟩, hmem, hx⟩ := List.mem_filterMap.1 hx
  obtain ⟨s, hs, rfl⟩ := Option.map_eq_some_iff.1 hx
  have hn : d.noted.graph.get? id = some n := by
    rw [Graph.get?, ← Array.getElem?_toList]
    exact List.mem_zipIdx_iff_getElem?.1 hmem
  exact step_noted hn (Node.kind_of_step hs)

end Definition

/-! ### What noted work does -/

namespace Environment

variable {env : Environment C (H × Asks) X ω}
  {I : Board C (H × Asks) X × ω → Board C (H × Asks) X × ω → Prop}

theorem onBoard_unaware_keeps (h : ∀ b c m w, I (b, w)
      ({ b with context := c }, env.setMemory (m, (env.memory w).2) w))
    (work : Work (C × H) StepResult) : (env.onBoard work.unaware).Keeps I := by
  rw [onBoard, Work.unaware]
  induction work with
  | done | crash => trivial
  | act f rest ih => exact fun s => ⟨h _ _ _ _, ih _⟩
  | sleep d rest ih => exact ih
  | awaitCancel rest ih => exact ih

theorem onBoard_noting_keeps {node : Nat} {asked : Asked}
    (h : ∀ b c m w, I (b, w) ({ b with context := c }, env.setMemory (m, (env.memory w).2) w))
    (hnote : ∀ b w, I (b, w)
      (b, env.setMemory ((env.memory w).1, (env.memory w).2 ++ [(node, asked)]) w))
    (work : Work (C × H) StepResult) : (env.onBoard (work.noting node asked)).Keeps I :=
  fun s => ⟨hnote s.1 s.2, onBoard_unaware_keeps h work⟩

end Environment

/-!
## What need not be asked again

The entries of a stored history settle what they tell of: where a step has succeeded nothing is
asked of it again, and where it waits it is not executed again. From a stored instance, as every
call leaves it, a run can begin only where nothing is asked that is settled (`Custody.Poised`).

Whoever works on an instance in custody only adds to its history, leaves it poised, and asks nothing
that is settled (`Custody.Advances`).
-/

variable {R : Type}

/-- By these entries this need not be asked again. -/
def Settled (entries : List StepTrace) (a : Nat × Asked) : Prop :=
  ∃ t ∈ entries, t.node = a.1 ∧
    (t.outcome = .succeeded ∨ a.2 = .execute ∧ ∃ signal, t.outcome = .suspended signal)

theorem Settled.mono {l l' : List StepTrace} {a : Nat × Asked} (h : Settled l a)
    (hl : ∀ t ∈ l, t ∈ l') : Settled l' a := by
  obtain ⟨t, ht, hsettles⟩ := h
  exact ⟨t, hl t ht, hsettles⟩

/-- The entry is of a node before `x`, or of `x` itself, where the step waits. -/
def StepTrace.UpTo (x : Nat) (t : StepTrace) : Prop :=
  t.node < x ∨ t.node = x ∧ ∃ signal, t.outcome = .suspended signal

/-- What a run may ask that begins here has not been settled by these entries. -/
def Graph.Clears (g : Graph C H) (entries : List StepTrace) : StartPoint → Prop
  | .root => entries = []
  | .frontier nodes => ∃ lo, g.Apart nodes.reverse lo g.size ∧ ∀ t ∈ entries, t.node < lo
  | .signal node pending _ => g.Apart (node :: pending.reverse) node g.size ∧
      ∀ t ∈ entries, t.UpTo node

/-- An instance of a definition, and how it is seen in the store. -/
structure Custody (C H R : Type) where
  definition : Definition C H
  view : R → Uuid → Option Instance
  id : Uuid
  /-- If so, every context can be stored. -/
  whole : Prop

namespace Custody

variable (q : Custody C H R)

/-- The coordinator runs the definition, and notes what it asks of the steps. -/
structure Serves (c : Coordinator C (H × Asks) R) : Prop where
  definition : c.definitions.find? (·.id == q.definition.id) = some q.definition.noted
  lawful : c.repository.Lawful q.view
  encodes : q.whole → ∀ context, (c.kind.encode context).isSome

/-- The graph that is walked. -/
abbrev graph : Graph C (H × Asks) := q.definition.noted.graph

def stored (w : World R (H × Asks)) : Option Instance := q.view w.store q.id

/-- Wherever a run of the instance can begin, it asks nothing that is settled. -/
structure Poised (s : Instance) : Prop where
  id : s.id = q.id
  workflow : s.workflow = q.definition.id
  created : s.status = .created → s.history = [] ∧ s.pending = [] ∧ s.waitingNode = none
  running : s.status = .running → q.graph.Clears s.history (Coordinator.restartPoint s)
  waiting : s.status = .waiting → ∀ node, s.waitingNode = some node → ∀ signal,
    q.graph.Clears s.history (.signal node s.pending signal)

/-- The second history has all entries of the first in their order; it begins with them where every
context can be stored. -/
structure Longer (l l' : List StepTrace) : Prop where
  sublist : l.Sublist l'
  begins : q.whole → l <+: l'

/-- The history only gets longer, the instance stays poised, and nothing is asked that is settled. -/
structure Advances (w v : World R (H × Asks)) : Prop where
  longer : ∀ s ∈ q.stored w, ∃ t ∈ q.stored v, q.Longer s.history t.history
  poised : (∀ s ∈ q.stored w, q.Poised s) → ∀ t ∈ q.stored v, q.Poised t
  asked : ∃ l, v.memory.2 = w.memory.2 ++ l ∧ ∀ a ∈ l, ∀ s ∈ q.stored w, ¬Settled s.history a

/-- Others leave the instance alone, and ask nothing for it. -/
def Aside (w v : World R (H × Asks)) : Prop :=
  q.stored v = q.stored w ∧ v.memory.2 = w.memory.2

variable {q : Custody C H R} {s t : Instance} {u v w : World R (H × Asks)} {l l' m : List StepTrace}

namespace Longer

theorem of_begins (h : l <+: l') : q.Longer l l' := ⟨h.sublist, fun _ => h⟩

theorem refl (l : List StepTrace) : q.Longer l l := of_begins (List.prefix_refl l)

theorem trans (h : q.Longer l l') (h' : q.Longer l' m) : q.Longer l m :=
  ⟨h.sublist.trans h'.sublist, fun hq => (h.begins hq).trans (h'.begins hq)⟩

theorem append (h : q.Longer l l') (m : List StepTrace) : q.Longer (m ++ l) (m ++ l') :=
  ⟨h.sublist.append_left m, fun hq => (List.prefix_append_right_inj m).2 (h.begins hq)⟩

end Longer

namespace Advances

theorem of_aside (h : q.Aside w v) : q.Advances w v where
  longer s hs := ⟨s, h.1 ▸ hs, .refl _⟩
  poised hw t ht := hw t (h.1 ▸ ht)
  asked := ⟨[], by rw [h.2, List.append_nil], by simp⟩

theorem refl (w : World R (H × Asks)) : q.Advances w w := of_aside ⟨rfl, rfl⟩

theorem trans (h : q.Advances u v) (h' : q.Advances v w) : q.Advances u w where
  longer s hs := by
    obtain ⟨t, ht, hst⟩ := h.longer s hs
    obtain ⟨r, hr, htr⟩ := h'.longer t ht
    exact ⟨r, hr, hst.trans htr⟩
  poised hu := h'.poised (h.poised hu)
  asked := by
    obtain ⟨l, hl, hfree⟩ := h.asked
    obtain ⟨l', hl', hfree'⟩ := h'.asked
    refine ⟨l ++ l', by rw [hl', hl, List.append_assoc], fun a ha s hs hsettled => ?_⟩
    rcases List.mem_append.1 ha with ha | ha
    · exact hfree a ha s hs hsettled
    · obtain ⟨t, ht, hst⟩ := h.longer s hs
      exact hfree' a ha t ht (hsettled.mono fun _ => hst.sublist.mem)

theorem of_stored (h : ∀ s ∈ q.stored w, q.Longer s.history t.history) (ht : q.Poised t)
    (hv : q.stored v = some t) (hmemory : v.memory = w.memory) : q.Advances w v where
  longer s hs := ⟨t, hv, h s hs⟩
  poised _ r hr := by
    rw [hv] at hr
    cases hr
    exact ht
  asked := ⟨[], by rw [hmemory, List.append_nil], by simp⟩

theorem of_asked {l : Asks} (hstore : v.store = w.store) (hl : v.memory.2 = w.memory.2 ++ l)
    (h : ∀ a ∈ l, ∀ s ∈ q.stored w, ¬Settled s.history a) : q.Advances w v := by
  have hsame : q.stored v = q.stored w := by rw [stored, hstore, stored]
  exact ⟨fun s hs => ⟨s, hsame ▸ hs, .refl _⟩, fun hw t ht => hw t (hsame ▸ ht), l, hl, h⟩

end Advances

/-- The changed instance is stored, or nothing is. -/
theorem stored_persist {repository : Repository R} (hlaw : repository.Lawful q.view)
    (hs : s.id = q.id) (w : World R (H × Asks)) :
    (Operation.onStore (repository.persist s) w).1 = .stored { s with revision := s.revision + 1 } ∧
        q.stored (Operation.onStore (repository.persist s) w).2 =
          some { s with revision := s.revision + 1 } ∨
      (∀ s', (Operation.onStore (repository.persist s) w).1 ≠ .stored s') ∧
        q.stored (Operation.onStore (repository.persist s) w).2 = q.stored w := by
  obtain ⟨heq, hview⟩ | ⟨hne, hview⟩ := Repository.persist_view hlaw s w.store
  · exact .inl ⟨heq, by rw [← hview, hs]; rfl⟩
  · exact .inr ⟨hne, congrFun hview q.id⟩

/-- The instance is watched: whatever is done to it, it advances. -/
def watch (q : Custody C H R) :
    Watch (World R (H × Asks)) (Board C (H × Asks) Instance) Report where
  good _ := True
  others := q.Aside
  own := q.Advances
  pace s t := q.Advances s.2 t.2
  mark _ _ _ := True
  refl _ := ⟨rfl, rfl⟩
  trans h h' := ⟨h'.1.trans h.1, h'.2.trans h.2⟩
  own_refl := .refl

namespace Poised

theorem revised (h : q.Poised s) (n : Nat) : q.Poised { s with revision := n } :=
  ⟨h.id, h.workflow, h.created, h.running, h.waiting⟩

theorem of_final (hid : s.id = q.id) (hworkflow : s.workflow = q.definition.id)
    (h : s.status.isFinal = true) : q.Poised s := by
  refine ⟨hid, hworkflow, ?_, ?_, ?_⟩ <;> intro hstatus <;> simp [hstatus, Status.isFinal] at h

/-- A running instance without a signal to deliver goes on at its frontier. -/
theorem of_frontier {nodes : List Nat} {lo : Nat} (hid : s.id = q.id)
    (hworkflow : s.workflow = q.definition.id) (hrunning : s.status = .running)
    (hdelivery : s.pendingDelivery = none) (hpending : s.pending = nodes.reverse)
    (hahead : q.graph.Apart nodes lo q.graph.size) (hpast : ∀ t ∈ s.history, t.node < lo) :
    q.Poised s := by
  refine ⟨hid, hworkflow, by simp [hrunning], fun _ => ?_, by simp [hrunning]⟩
  simp only [Coordinator.restartPoint, hdelivery]
  split
  · next hempty => exact List.isEmpty_iff.1 (Bool.and_eq_true_iff.1 hempty).2
  · refine ⟨lo, ?_, hpast⟩
    rw [hpending, List.reverse_reverse]
    exact hahead

end Poised

end Custody

end DurableWorkflow

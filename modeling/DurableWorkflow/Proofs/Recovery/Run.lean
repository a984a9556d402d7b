import DurableWorkflow.Proofs.Journal.Repository
import DurableWorkflow.Proofs.Reading.Compile
import DurableWorkflow.Proofs.Recovery.Life

/-!
# Runs of a stored instance

All calls on an instance share a deployment: the definition, the options, the kind of its contexts,
and a schedule. While an instance is run, the version in hand shows a sketch of its life, and the
stored version shows one, too, which may be an earlier one where a checkpoint was refused. Each node
that is passed is one move of the life (`pass_stands`); so whatever is stored when the run ends or
is dropped is on the way of the life, and where the run ends the life can go one move further
(`walkMain_stands`).
-/

namespace DurableWorkflow

variable {C H R κ : Type}

/-- Others may do anything, but not to the store. -/
def World.Idle (w v : World R H) : Prop := v.store = w.store

/-- What all calls on an instance have in common. -/
structure Deployment (C H R κ : Type) where
  kind : ContextKind C
  options : RunOptions
  definition : Definition C H
  view : R → Uuid → Option Instance
  schedule : Schedule (Board C H Instance × World R H) Report
  /-- What the steps can tell of a signal. -/
  key : Signal → κ

/-- Steps depend on the context alone, and so does the schedule; every context can be stored and
read back; nothing is undone, and there is no limit on the whole run. -/
structure Deployment.Sound (p : Deployment C H R κ) : Prop where
  built : ∃ registry program, Program.compile registry program = .ok p.definition
  blind : p.definition.graph.Blind p.key
  behavioural : p.schedule.Behavioural p.options p.definition.graph
  encodes : ∀ context, (p.kind.encode context).isSome
  decodes : ∀ context json, p.kind.encode context = some json → p.kind.decode json = some context
  uncompensated : p.options.compensation = false
  unlimited : p.definition.limit = none

namespace Deployment

variable (p : Deployment C H R κ)

/-- The coordinator belongs to the deployment. -/
structure Serves (c : Coordinator C H R) : Prop where
  kind : c.kind = p.kind
  options : c.options = p.options
  definition : c.definitions.find? (·.id == p.definition.id) = some p.definition
  lawful : c.repository.Lawful p.view

/-- What nodes do in runs of the deployment. -/
def does : Doings C κ :=
  visits (Beside World.Idle) p.schedule p.options p.definition.graph p.key

/-- The lives of instances that were started with a context. -/
abbrev Lives (context : C) : List κ → Sketch C κ → Prop := Life p.does p.definition.root context

/-- The instance shows the sketch. -/
structure Shows (id : Uuid) (s : Instance) (x : Sketch C κ) : Prop extends
    s.Shows p.kind p.key x where
  id : s.id = id
  workflow : s.workflow = p.definition.id
  version : s.version = p.definition.version

/-- The stored version, if there is one, shows a sketch of such a life. -/
def Alive (id : Uuid) (context : C) (ks : List κ) (stored : Option Instance) : Prop :=
  ∀ s ∈ stored, ∃ x, p.Lives context ks x ∧ p.Shows id s x

end Deployment

namespace Deployment

variable {p : Deployment C H R κ} {c : Coordinator C H R} {id : Uuid} {begun : C} {ks : List κ}
  {x y : Sketch C κ} {s s' : Instance}

theorem Shows.revised (h : p.Shows id s x) (n : Nat) : p.Shows id { s with revision := n } x :=
  ⟨⟨h.status, h.context, h.pending, h.node, h.awaited, h.delivered, h.history, h.error⟩, h.id,
    h.workflow, h.version⟩

/-- What a checkpoint saves shows the node passed. -/
theorem Shows.atCheckpoint (h : p.Shows id s x) {context : C} {json : Json}
    (hjson : p.kind.encode context = some json) (ahead : List NodeId) (v : Visited)
    (now : Timestamp) :
    p.Shows id (Coordinator.atCheckpoint s json ⟨context, ahead.reverse, v.trace⟩ now)
      (x.passed context ahead v.gist.1) := by
  refine ⟨⟨h.status, hjson, rfl, rfl, h.awaited, rfl, ?_, h.error⟩, h.id, h.workflow, h.version⟩
  simp [Coordinator.atCheckpoint, Instance.clearDelivery, Sketch.passed, ← h.history, Visited.gist]

theorem Alive.of_shows (hx : p.Lives begun ks x) (hs : p.Shows id s x) :
    p.Alive id begun ks (some s) := by
  intro t ht
  cases ht
  exact ⟨x, hx, hs⟩

/-- With a version of its life stored or not, an instance stays alive. -/
theorem Alive.persist (hlaw : c.repository.Lawful p.view) (hx : p.Lives begun ks x)
    (hs : p.Shows id s x) {store : R} (h : p.Alive id begun ks (p.view store id)) :
    p.Alive id begun ks (p.view (c.repository.persist s store).2 id) := by
  obtain ⟨-, hview⟩ | ⟨-, hview⟩ := Repository.persist_view hlaw s store
  · obtain rfl := hs.id
    rw [hview]
    exact .of_shows hx (hs.revised _)
  · rw [hview]
    exact h

/-- Storing an instance for the first time. -/
theorem Alive.save (hlaw : c.repository.Lawful p.view) (hx : p.Lives begun ks x)
    (hs : p.Shows id s x) {store : R} (h : p.Alive id begun ks (p.view store id)) :
    p.Alive id begun ks (p.view (c.repository.save s store).2 id) := by
  have hobeys := hlaw.save s store
  cases hreply : c.repository.save s store with
  | mk answer store' =>
    rw [hreply] at hobeys
    cases answer with
    | ok =>
      rw [hobeys.2 id, if_pos hs.id]
      exact .of_shows hx hs
    | error fault =>
      rw [show p.view store' = p.view store from hobeys]
      exact h

/-- The root is a step, and leaves an entry. -/
theorem does_root (hp : p.Sound) (context : C) (v : List Gist × Turn) (context' : C)
    (h : p.does p.definition.root none context v context') : v.1 ≠ [] := by
  obtain ⟨registry, program, hbuilt⟩ := hp.built
  obtain ⟨n, s, hn, hkind⟩ := program.root_of_compile registry hbuilt
  exact visits_step hn hkind h

/-- What a node of a living instance did leaves it with entries. -/
theorem history_ne_nil (hp : p.Sound) (hx : p.Lives begun ks x) {node : NodeId} {k : Option κ}
    {ahead : List NodeId} {v : List Gist × Turn} {context : C}
    (hnext : x.next p.definition.root = some (node, k, ahead))
    (hdoes : p.does node k x.context v context) : x.history ++ v.1 ≠ [] :=
  Sketch.history_ne_nil (does_root hp)
    (fun h => ⟨(hx.at_root (does_root hp) h).1, (hx.at_root (does_root hp) h).2.1⟩) hnext hdoes

end Deployment

/-! ### Runs -/

/-- The last move of a life in a run that ends like this. -/
inductive RunOutcome.Leads : RunOutcome → Sketch C κ → Sketch C κ → Prop
  | completed (x : Sketch C κ) : Leads .completed x x.completed
  | failed (x : Sketch C κ) (context : C) (ahead : List NodeId) (entries : List Gist)
    (f : Failure) : Leads (.failed f) x ((x.passed context ahead entries).failed f.text)
  | suspended (x : Sketch C κ) (context : C) (entries : List Gist) (s : Suspension) :
    Leads (.suspended s) x ((x.passed context s.pending.reverse entries).waiting s.node s.signal)

namespace Deployment

variable (p : Deployment C H R κ) (id : Uuid) (begun : C) (ks : List κ) (base : List StepTrace)

/-- The version in hand shows a running sketch, with the entries of this run after those at its
beginning. -/
structure InHand (b : Board C H Instance) (x : Sketch C κ) : Prop where
  lives : p.Lives begun ks x
  shows : p.Shows id b.extra x
  running : x.status = .running
  history : b.extra.history = base ++ b.ledger.trace

/-- A run has ended with this outcome, and the life can make the move that it calls for, to where it
has the context and the entries that the run leaves. -/
structure Ended (outcome : RunOutcome) (b : Board C H Instance) (x y : Sketch C κ) : Prop where
  lives : p.Lives begun ks x
  shows : p.Shows id b.extra x
  running : x.status = .running
  next : x.Next p.does p.definition.root y
  leads : outcome.Leads x y
  context : y.context = b.context
  history : y.history = (base ++ b.ledger.trace).map (·.gist)
  base : base <+: b.extra.history

/-- Wherever the run has come to, the instance is alive, and if the run has ended without a crash,
it has ended in a move of the life. -/
def Stands (y : Option Report × Board C H Instance × World R H) : Prop :=
  p.Alive id begun ks (p.view y.2.2.store id) ∧
    ∀ r ∈ y.1, r.crash? = none → ∃ outcome x x',
      Environment.outcome p.definition (some r) = some outcome ∧
        p.Ended id begun ks base outcome y.2.1 x x'

variable {p id begun ks base} {c : Coordinator C H R} {x : Sketch C κ}

/-- On the schedule of the deployment. -/
abbrev Goes (p : Deployment C H R κ) :
    Walk (Board C H Instance × World R H) Report × Board C H Instance × World R H →
      Option Report × Board C H Instance × World R H → Prop :=
  Walk.Goes (Beside World.Idle) p.schedule (Report.Fair p.options)

/-- Nothing that happens at a node touches the instance in hand, the entries or the store. -/
theorem environment_around (c : Coordinator C H R) (id : Uuid) (g : Graph C H) :
    (c.environment id).Around g fun s t : Board C H Instance × World R H =>
      t.1.extra = s.1.extra ∧ t.1.ledger.trace = s.1.ledger.trace ∧ t.2.store = s.2.store where
  board _ _ _ h := ⟨h.extra, h.trace, rfl⟩
  enter _ _ _ _ _ := ⟨rfl, rfl, rfl⟩
  publish _ _ _ _ := ⟨rfl, rfl, rfl⟩
  memory _ _ _ _ := ⟨rfl, rfl, rfl⟩

end Deployment

end DurableWorkflow

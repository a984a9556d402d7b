import DurableWorkflow.Definition
import DurableWorkflow.Run.Visit

/-!
# Traversing a graph

A walk keeps the nodes that are still to visit, the next one first, and puts the nodes that follow
the visited one in front. The limit on visits is what ends every walk: `fuel` stands one above the
visits that can still be admitted, so a walk that runs out of it has been refused before.
-/

namespace DurableWorkflow

/-- A branch must not wait for a signal. -/
def Graph.strandedFailure {C H : Type} (graph : Graph C H) (node : NodeId) (signal : String) :
    Failure :=
  let label := ((graph.get? node).map (·.kind.label)).getD ""
  ⟨some label, some node, 1,
    "step '" ++ label ++ "' suspended on '" ++ signal ++ "' inside a parallel block"⟩

namespace Environment

variable {C H X ω : Type} (env : Environment C H X ω)

/-- The walk of a branch that has these nodes still to visit and these entries behind it. -/
def walkBranch (graph : Graph C H) :
    Nat → List NodeId → List StepTrace → Walk (Board C H X × ω) Report
  | _, [], trace => .done ⟨trace, .drained⟩
  | 0, node :: _, trace => .done ⟨trace, .failed (Failure.ofEngine "engine" node env.limitMessage)⟩
  | fuel + 1, node :: ahead, trace =>
    env.visit graph (fun child => walkBranch graph fuel [child] []) node fun v =>
      let trace := trace ++ v.trace
      match v.turn with
      | .onward next => walkBranch graph fuel (next ++ ahead) trace
      | .failed f => .done ⟨trace, .failed f⟩
      | .suspended signal _ => .done ⟨trace, .failed (graph.strandedFailure node signal)⟩

/-- Save a checkpoint with these nodes ahead; a message if that was fatal. -/
def checkpoint (ahead : List NodeId) (trace : List StepTrace) : Part C H X ω (Option String) :=
  .update fun (b, w) =>
    match env.save ⟨b.context, ahead.reverse, trace⟩ (b.extra, w) with
    | .ok (extra, w) => (none, { b with extra }, w)
    | .error m => (some m, b, w)

/-- Enter what came of a node of the main walk into the books; go on with `next` from the nodes
then ahead, or end the walk. -/
def pass (node : NodeId) (ahead : List NodeId) (v : Visited)
    (next : List NodeId → Walk (Board C H X × ω) Report) : Walk (Board C H X × ω) Report :=
  .act (fun (b, w) => ({ b with ledger.trace := b.ledger.trace ++ v.trace }, w)) fun _ =>
    match v.turn with
    | .onward nodes =>
      let ahead := nodes ++ ahead
      env.checkpoint ahead v.trace fun
        | none => next ahead
        | some m => .done { halt := .crashed m }
    | .failed f => .done { halt := .failed f }
    | .suspended signal limit =>
      .act (fun (b, w) => (b, env.announce (.runSuspended node signal) w)) fun _ =>
        .done { halt := .suspended ⟨signal, limit, node, ahead.reverse⟩ }

/-- The main walk with these nodes ahead. -/
def walkMain (graph : Graph C H) : Nat → List NodeId → Walk (Board C H X × ω) Report
  | _, [] => .done { halt := .drained }
  | 0, node :: _ => .done { halt := .failed (Failure.ofEngine "engine" node env.limitMessage) }
  | fuel + 1, node :: ahead =>
    env.visit graph (fun child => env.walkBranch graph fuel [child] []) node fun v =>
      env.pass node ahead v (walkMain graph fuel)

/-- The whole walk of a definition from a start point. -/
def traverse (d : Definition C H) (start : StartPoint) : Walk (Board C H X × ω) Report :=
  let fuel := env.options.maxNodeVisits + 1
  match start with
  | .root => env.walkMain d.graph fuel [d.root]
  | .frontier nodes => env.walkMain d.graph fuel nodes.reverse
  | .signal node pending signal =>
    env.deliver d.graph node signal fun v =>
      env.pass node pending.reverse v (env.walkMain d.graph fuel)

end Environment

end DurableWorkflow

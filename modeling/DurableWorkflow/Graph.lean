import DurableWorkflow.Step

/-!
# Graphs of nodes

Nodes are numbered in the order in which they are added, and each has at most one successor. Flow
forks only at a parallel node, whose children are chains of their own, as are those of a sequence.
-/

namespace DurableWorkflow

/-- A condition on the context. It may fail to give an answer, with a message. -/
abbrev Predicate (C : Type) := C → Except String Bool

inductive NodeKind (C H : Type) where
  | step (s : Step C H)
  /-- The children run to their ends one after the other. -/
  | sequence (children : List NodeId)
  /-- Goes on at one of the entries, or at the successor where that entry is missing. -/
  | conditional (holds : Predicate C) (thenEntry elseEntry : Option NodeId)
  /-- The children run side by side, and all of them to their ends. -/
  | parallel (children : List NodeId)
  | delay (d : Nanos)

structure Node (C H : Type) where
  kind : NodeKind C H
  next : Option NodeId := none

namespace NodeKind

variable {C H : Type}

/-- The same node on a part of a larger context. -/
def zoom {D : Type} (get : D → C) (set : C → D → D) : NodeKind C H → NodeKind D H
  | step s => step (s.zoom get set)
  | sequence children => sequence children
  | conditional holds t e => conditional (fun d => holds (get d)) t e
  | parallel children => parallel children
  | delay d => delay d

def name : NodeKind C H → String
  | step _ => "step"
  | sequence _ => "sequence"
  | conditional .. => "conditional"
  | parallel _ => "parallel"
  | delay _ => "delay"

/-- The name of the step, or of the kind. -/
def label : NodeKind C H → String
  | step s => s.name
  | k => k.name

end NodeKind

namespace Node

variable {C H : Type}

def step? (n : Node C H) : Option (Step C H) :=
  match n.kind with
  | .step s => some s
  | _ => none

/-- Can flow leave the node with nowhere to go? -/
def isOpenExit (n : Node C H) : Bool :=
  n.next.isNone &&
    match n.kind with
    | .conditional _ t e => t.isNone || e.isNone
    | _ => true

/-- Where flow can go from here within its chain. -/
def targets (n : Node C H) : List NodeId :=
  match n.kind with
  | .conditional _ t e => (t.or n.next).toList ++ (e.or n.next).toList
  | _ => n.next.toList

end Node

structure Graph (C H : Type) where
  nodes : Array (Node C H) := #[]

namespace Graph

variable {C H : Type}

def size (g : Graph C H) : Nat := g.nodes.size

/-- The same graph on a part of a larger context. -/
def zoom {D : Type} (get : D → C) (set : C → D → D) (g : Graph C H) : Graph D H :=
  ⟨g.nodes.map fun n => { kind := n.kind.zoom get set, next := n.next }⟩

def get? (g : Graph C H) (id : NodeId) : Option (Node C H) := g.nodes[id]?

/-- Add a node, and say which it is. -/
def push (g : Graph C H) (kind : NodeKind C H) : NodeId × Graph C H :=
  (g.size, ⟨g.nodes.push { kind }⟩)

def setKind (g : Graph C H) (id : NodeId) (kind : NodeKind C H) : Graph C H :=
  ⟨g.nodes.modify id fun n => { n with kind }⟩

/-- The successor that a link from `id` to `target` would replace. -/
def conflict? (g : Graph C H) (id target : NodeId) : Option NodeId :=
  match (g.get? id).bind (·.next) with
  | some n => if n = target then none else some n
  | none => none

/-- Make `target` the successor of `id`. -/
def link (g : Graph C H) (id target : NodeId) : Graph C H :=
  ⟨g.nodes.modify id fun n => { n with next := some target }⟩

/-- The step nodes with their steps, in order. -/
def steps (g : Graph C H) : List (NodeId × Step C H) :=
  g.nodes.toList.zipIdx.filterMap fun (n, id) => n.step?.map fun s => (id, s)

theorem mem_steps {g : Graph C H} {id : NodeId} {n : Node C H} {s : Step C H}
    (hid : g.get? id = some n) (hs : n.step? = some s) : (id, s) ∈ g.steps := by
  rw [get?, ← Array.getElem?_toList] at hid
  refine List.mem_filterMap.2 ⟨(n, id), List.mem_zipIdx_iff_getElem?.2 hid, ?_⟩
  simp [hs]

/-- Put `id` into an ascending list. -/
def insertId (id : NodeId) : List NodeId → List NodeId
  | [] => [id]
  | n :: ns => if id ≤ n then id :: n :: ns else n :: insertId id ns

/-- Go through the nodes that can be reached from `queue`, nearest first and each of them once, and
collect the open exits. -/
def search (g : Graph C H) : Nat → List NodeId → List NodeId → List NodeId → List NodeId
  | 0, _, _, exits => exits
  | _ + 1, [], _, exits => exits
  | fuel + 1, id :: queue, seen, exits =>
    if seen.contains id then g.search fuel queue seen exits
    else
      match g.get? id with
      | none => g.search fuel queue (id :: seen) exits
      | some n =>
        g.search fuel (queue ++ n.targets) (id :: seen)
          (if n.isOpenExit then insertId id exits else exits)

/-- The nodes at which the chain that starts at `entry` can end, ascending. -/
def terminals (g : Graph C H) (entry : NodeId) : List NodeId :=
  g.search (2 * g.size + 2) [entry] [] []

end Graph

end DurableWorkflow

import DurableWorkflow.Program

/-!
# Definitions

A program is compiled into a graph in one pass. A chain keeps its open exits: the nodes whose
successor is still to come. Adding a node links all of them to it. A choice leaves the exits of both
its arms open, and itself where an arm is empty, so that what follows runs after either. Mistakes
are noted as they are met and the first of them is reported.
-/

namespace DurableWorkflow

/-- What is wrong with a program. -/
inductive ConfigError where
  | missingRoot
  | rootAlreadySet
  | notStarted (what : String)
  | armAlreadyConfigured (whenTrue : Bool)
  | emptyParallel
  | emptySequence
  | emptyBranch
  | invalidId (id : String)
  | invalidVersion (version : String) (fault : Version.Fault)
  | zeroLimit
  | longLimit (limit : Nanos)
  | suspendInParallel (step : String)
  | unresolvedStep (type : String)
  | link (node existing : NodeId)
  deriving DecidableEq, Repr

def ConfigError.message : ConfigError → String
  | missingRoot => "workflow has no root step; call start_with first"
  | rootAlreadySet => "start_with called more than once"
  | notStarted what => "cannot append '" ++ what ++ "' before start_with"
  | armAlreadyConfigured b => (if b then "then" else "else") ++ " branch configured more than once"
  | emptyParallel => "parallel block has no branches"
  | emptySequence => "sequence has no steps"
  | emptyBranch => "parallel branch has no steps"
  | invalidId id =>
    "invalid workflow id '" ++ id ++ "': expected 1-128 characters of [A-Za-z0-9_.-]"
  | invalidVersion v fault => "invalid workflow version '" ++ v ++ "': " ++ fault.message
  | zeroLimit => "invalid workflow timeout: must be greater than zero"
  | longLimit d =>
    "invalid workflow timeout: " ++ toString d.seconds ++ "s exceeds the 30 day maximum"
  | suspendInParallel step =>
    "step '" ++ step ++ "' may suspend and cannot run inside a parallel block"
  | unresolvedStep type => "no step of type " ++ type ++ " registered"
  | link node existing => "node " ++ node.text ++ " already links to " ++ existing.text

/-- A workflow that can be run. -/
structure Definition (C H : Type) where
  id : String
  name : String
  version : Version
  limit : Option Nanos
  root : NodeId
  graph : Graph C H

/-- Can any step of the workflow wait for a signal? -/
def Definition.hasSuspendingSteps {C H : Type} (d : Definition C H) : Bool :=
  d.graph.steps.any (·.2.maySuspend)

/-- The same workflow on a part of a larger context. -/
def Definition.zoom {C D H : Type} (get : D → C) (set : C → D → D) (d : Definition C H) :
    Definition D H :=
  { d with graph := d.graph.zoom get set }

/-- A chain under construction. -/
structure Chain where
  entry : Option NodeId := none
  /-- The nodes whose successor is still to come. -/
  exits : List NodeId := []
  /-- The nodes added to a chain whose items are not linked. -/
  items : List NodeId := []
  deriving DecidableEq, Repr, Inhabited

/-- Where items are being added. -/
structure Place where
  inParallel : Bool
  /-- Each item is a chain of its own. -/
  isolated : Bool

/-- The graph so far, and the mistakes so far. -/
structure Draft (C H : Type) where
  graph : Graph C H := {}
  errors : List ConfigError := []

namespace Draft

variable {C H : Type}

def note (d : Draft C H) (e : ConfigError) : Draft C H := { d with errors := d.errors ++ [e] }

def push (d : Draft C H) (kind : NodeKind C H) : NodeId × Draft C H :=
  ((d.graph.push kind).1, { d with graph := (d.graph.push kind).2 })

def setKind (d : Draft C H) (id : NodeId) (kind : NodeKind C H) : Draft C H :=
  { d with graph := d.graph.setKind id kind }

def link (d : Draft C H) (id target : NodeId) : Draft C H :=
  match d.graph.conflict? id target with
  | some existing => d.note (.link id existing)
  | none => { d with graph := d.graph.link id target }

/-- Attach `node` to a chain, whose only exit it becomes. -/
def attach (d : Draft C H) (place : Place) (chain : Chain) (node : NodeId) : Chain × Draft C H :=
  if place.isolated then
    ({ chain with entry := chain.entry.or (some node), items := chain.items ++ [node] }, d)
  else
    match chain.entry with
    | none => ({ chain with entry := some node, exits := [node] }, d)
    | some _ =>
      ({ chain with exits := [node] }, chain.exits.foldl (fun d exit => d.link exit node) d)

def addStep (d : Draft C H) (place : Place) (chain : Chain) (s : Step C H) : Chain × Draft C H :=
  if place.inParallel && s.maySuspend then (chain, d.note (.suspendInParallel s.name))
  else
    let (node, d) := d.push (.step s)
    d.attach place chain node

end Draft

/-- The arms of a choice that have been compiled. -/
structure Arms where
  whenTrue : Option Chain := none
  whenFalse : Option Chain := none

/-- The open exits of a choice at `node`. -/
def Arms.exits (arms : Arms) (node : NodeId) : List NodeId :=
  let t := arms.whenTrue.getD {}
  let e := arms.whenFalse.getD {}
  t.exits ++ e.exits ++ if t.entry.isNone || e.entry.isNone then [node] else []

section

variable {C H : Type} (registry : Registry C H)

mutual

/-- Add an item to a chain. -/
def Item.compile (place : Place) (chain : Chain) (d : Draft C H) :
    Item C H → Chain × Draft C H
  | .step s => d.addStep place chain s
  | .registered type =>
    match registry.resolve type with
    | some s => d.addStep place chain s
    | none => (chain, d.note (.unresolvedStep type))
  | .delay duration =>
    let (node, d) := d.push (.delay duration)
    d.attach place chain node
  | .choice holds arms =>
    let (node, d) := d.push (.conditional holds none none)
    let (chain, d) := d.attach place chain node
    let (done, d) := compileArms place {} d arms
    let d := d.setKind node (.conditional holds (done.whenTrue.bind (·.entry))
      (done.whenFalse.bind (·.entry)))
    (if place.isolated then chain else { chain with exits := done.exits node }, d)
  | .parallel branches =>
    let (node, d) := d.push (.parallel [])
    let (children, d) := compileBranches [] d branches
    let d := if children.isEmpty then d.note .emptyParallel else d
    (d.setKind node (.parallel children)).attach place chain node
  | .sequence items =>
    let (node, d) := d.push (.sequence [])
    let (inner, d) := compileItems ⟨place.inParallel, true⟩ {} d items
    let d := if inner.items.isEmpty then d.note .emptySequence else d
    (d.setKind node (.sequence inner.items)).attach place chain node

/-- Add items to a chain in order. -/
def compileItems (place : Place) (chain : Chain) (d : Draft C H) :
    List (Item C H) → Chain × Draft C H
  | [] => (chain, d)
  | item :: items =>
    let (chain, d) := item.compile place chain d
    compileItems place chain d items

/-- Compile the arms of a choice; each side counts once. -/
def compileArms (place : Place) (done : Arms) (d : Draft C H) :
    List (Arm C H) → Arms × Draft C H
  | [] => (done, d)
  | .whenTrue items :: arms =>
    if done.whenTrue.isSome then compileArms place done (d.note (.armAlreadyConfigured true)) arms
    else
      let (inner, d) := compileItems ⟨place.inParallel, false⟩ {} d items
      compileArms place { done with whenTrue := some inner } d arms
  | .whenFalse items :: arms =>
    if done.whenFalse.isSome then compileArms place done (d.note (.armAlreadyConfigured false)) arms
    else
      let (inner, d) := compileItems ⟨place.inParallel, false⟩ {} d items
      compileArms place { done with whenFalse := some inner } d arms

/-- Compile the branches of a parallel block to their entries, which follow `children`. -/
def compileBranches (children : List NodeId) (d : Draft C H) :
    List (Branch C H) → List NodeId × Draft C H
  | [] => (children, d)
  | .single s :: branches =>
    if s.maySuspend then compileBranches children (d.note (.suspendInParallel s.name)) branches
    else
      let (node, d) := d.push (.step s)
      compileBranches (children ++ [node]) d branches
  | .chain items :: branches =>
    let (inner, d) := compileItems ⟨true, false⟩ {} d items
    match inner.entry with
    | some entry => compileBranches (children ++ [entry]) d branches
    | none => compileBranches children (d.note .emptyBranch) branches

end

/-- What has been said so far about a workflow. -/
structure Outline (C H : Type) where
  draft : Draft C H := {}
  chain : Chain := {}
  started : Bool := false
  limit : Option Nanos := none

def maxLimit : Nanos := Nanos.ofSeconds (30 * 24 * 60 * 60)

/-- What an item is called in a complaint. -/
def Item.noun : Item C H → String
  | .step _ | .registered _ => "step"
  | .delay _ => "delay"
  | .choice .. => "conditional"
  | .parallel _ => "parallel block"
  | .sequence _ => "sequence"

/-- A choice is compiled even where nothing has been started. -/
def Item.isChoice : Item C H → Bool
  | .choice .. => true
  | _ => false

def Outline.append (o : Outline C H) (item : Item C H) : Outline C H :=
  let (chain, draft) := item.compile registry ⟨false, false⟩ o.chain o.draft
  { o with chain, draft }

def Outline.note (o : Outline C H) (e : ConfigError) : Outline C H :=
  { o with draft := o.draft.note e }

def Outline.call (o : Outline C H) : Call C H → Outline C H
  | .start s =>
    if o.started then o.note .rootAlreadySet
    else ({ o with started := true } : Outline C H).append registry (.step s)
  | .append item =>
    if o.started then o.append registry item
    else
      let o := o.note (.notStarted item.noun)
      if item.isChoice then o.append registry item else o
  | .bound limit =>
    if limit = 0 then o.note .zeroLimit
    else if limit > maxLimit then o.note (.longLimit limit)
    else { o with limit := some limit }

/-- 1 to 128 letters, digits, underscores, points and hyphens. -/
def isValidId (id : String) : Bool :=
  !id.isEmpty && id.utf8ByteSize ≤ 128
    && id.toList.all fun c => c.isAlphanum || c == '_' || c == '.' || c == '-'

/-- An outline that notes what is wrong with identifier and version. -/
def Outline.begin (id : String) (version : Except Version.Fault Version) (text : String) :
    Outline C H :=
  let o : Outline C H := {}
  let o := if isValidId id then o else o.note (.invalidId id)
  match version with
  | .ok _ => o
  | .error fault => o.note (.invalidVersion text fault)

/-- Compile a program, or report its first mistake. -/
def Program.compile (p : Program C H) : Except ConfigError (Definition C H) :=
  let version := Version.parse p.version
  let o := p.calls.foldl (fun o c => o.call registry c) (Outline.begin p.id version p.version)
  match o.draft.errors.head?, o.chain.entry, version with
  | some e, _, _ => .error e
  | none, some root, .ok version =>
    .ok { id := p.id, name := p.name, version, limit := o.limit, root, graph := o.draft.graph }
  | none, _, _ => .error .missingRoot

end

end DurableWorkflow

import DurableWorkflow.Definition
import DurableWorkflow.Proofs.Reading.Basic

/-!
# How a program lies in a graph

`ItemsAt g items entry next`: in `g` the chain of `items` begins at `entry` and flow that passes it
goes on to `next`. An empty chain has no entry, and flow goes to `next` at once. The items of a
sequence and the branches of a parallel block are chains of their own that lead nowhere.

While a graph is built its last chain is still open: `g.Open lo hi exits P` says that the nodes from
`lo` to `hi` make `P` true for whatever successor the exits are given.
-/

namespace DurableWorkflow

variable {C H : Type}

section

variable (registry : Registry C H) (g : Graph C H)

mutual

/-- The item lies at `node`, and flow that passes it goes on to `next`. -/
def Item.At (node : NodeId) (next : Option NodeId) : Item C H → Prop
  | .step s => g.get? node = some ⟨.step s, next⟩
  | .registered type =>
    ∃ s, registry.resolve type = some s ∧ g.get? node = some ⟨.step s, next⟩
  | .delay d => g.get? node = some ⟨.delay d, next⟩
  | .choice holds arms => ∃ t e own, g.get? node = some ⟨.conditional holds t e, own⟩ ∧
      ArmAt true t next arms ∧ ArmAt false e next arms ∧ (t = none ∨ e = none → own = next)
  | .parallel branches => ∃ children, g.get? node = some ⟨.parallel children, next⟩ ∧
      BranchesAt children branches
  | .sequence items => ∃ children, g.get? node = some ⟨.sequence children, next⟩ ∧
      PartsAt children items

/-- A chain from `entry`, with flow going on to `next`. -/
def ItemsAt (entry next : Option NodeId) : List (Item C H) → Prop
  | [] => entry = none
  | item :: items => ∃ node after, entry = some node ∧ item.At node (after.or next) ∧
      ItemsAt after next items

/-- Items that are chains of their own. -/
def PartsAt (children : List NodeId) : List (Item C H) → Prop
  | [] => children = []
  | item :: items => ∃ node rest, children = node :: rest ∧ item.At node none ∧ PartsAt rest items

/-- The arm for one side of a choice. -/
def ArmAt (side : Bool) (entry next : Option NodeId) : List (Arm C H) → Prop
  | [] => entry = none
  | .whenTrue items :: arms =>
    if side then ItemsAt entry next items else ArmAt side entry next arms
  | .whenFalse items :: arms =>
    if side then ArmAt side entry next arms else ItemsAt entry next items

/-- Branches that begin at `children`. -/
def BranchesAt (children : List NodeId) : List (Branch C H) → Prop
  | [] => children = []
  | .single s :: branches => ∃ node rest, children = node :: rest ∧
      g.get? node = some ⟨.step s, none⟩ ∧ BranchesAt rest branches
  | .chain items :: branches => ∃ node rest, children = node :: rest ∧
      ItemsAt (some node) none items ∧ BranchesAt rest branches

end

end

mutual

/-- How many nodes an item takes. -/
def Item.nodes : Item C H → Nat
  | .step _ | .registered _ | .delay _ => 1
  | .choice _ arms => 1 + armsNodes arms
  | .parallel branches => 1 + branchesNodes branches
  | .sequence items => 1 + itemsNodes items

def itemsNodes : List (Item C H) → Nat
  | [] => 0
  | item :: items => item.nodes + itemsNodes items

def armsNodes : List (Arm C H) → Nat
  | [] => 0
  | .whenTrue items :: arms | .whenFalse items :: arms => itemsNodes items + armsNodes arms

def branchesNodes : List (Branch C H) → Nat
  | [] => 0
  | .single _ :: branches => 1 + branchesNodes branches
  | .chain items :: branches => itemsNodes items + branchesNodes branches

end

theorem itemsNodes_append (xs ys : List (Item C H)) :
    itemsNodes (xs ++ ys) = itemsNodes xs + itemsNodes ys := by
  induction xs with
  | nil => simp [itemsNodes]
  | cons x xs ih => simp only [List.cons_append, itemsNodes, ih]; omega

/-- One more item at the end of a chain. -/
theorem ItemsAt.concat {registry : Registry C H} {g : Graph C H} {entry next : Option NodeId}
    {items : List (Item C H)} {item : Item C H} {node : NodeId} (hne : items ≠ [])
    (h : ItemsAt registry g entry (some node) items) (hitem : item.At registry g node next) :
    ItemsAt registry g entry next (items ++ [item]) := by
  induction items generalizing entry with
  | nil => exact absurd rfl hne
  | cons x xs ih =>
    obtain ⟨n, after, rfl, hx, hxs⟩ := h
    match xs with
    | [] =>
      obtain rfl : after = none := hxs
      exact ⟨n, some node, rfl, hx, node, none, rfl, hitem, rfl⟩
    | y :: ys =>
      obtain ⟨m, -, rfl, -⟩ := id hxs
      exact ⟨n, some m, rfl, hx, ih (by simp) hxs⟩

/-! ### Chains that are still open -/

namespace Graph

/-- The node `id` with `next` for successor if it is one of the exits. -/
def closed (g : Graph C H) (exits : List NodeId) (next : Option NodeId) (id : NodeId) :
    Option (Node C H) :=
  (g.get? id).map fun n => if id ∈ exits then { n with next } else n

/-- Whatever successor the exits are given, `P` holds of the graph and that successor. Only the
nodes from `lo` to `hi` matter. -/
structure Open (g : Graph C H) (lo hi : Nat) (exits : List NodeId)
    (P : Graph C H → Option NodeId → Prop) : Prop where
  mem : ∀ id : Nat, id ∈ exits → lo ≤ id ∧ id < hi
  free : ∀ id : Nat, id ∈ exits → ∀ n, g.get? id = some n → n.next = none
  holds : ∀ g' next, (∀ id, lo ≤ id → id < hi → g'.get? id = g.closed exits next id) → P g' next

theorem closed_of_not_mem {g : Graph C H} {exits : List NodeId} {id : NodeId} (h : id ∉ exits)
    (next : Option NodeId) : g.closed exits next id = g.get? id := by
  simp [closed, h]

theorem closed_congr {g g' : Graph C H} {exits exits' : List NodeId} {id : NodeId}
    (hg : g'.get? id = g.get? id) (h : id ∈ exits' ↔ id ∈ exits) (next : Option NodeId) :
    g'.closed exits' next id = g.closed exits next id := by
  simp only [closed, hg, h]

namespace Open

variable {g g' : Graph C H} {lo mid hi : Nat} {exits exits' : List NodeId}
  {P Q : Graph C H → Option NodeId → Prop}

theorem mono (h : g.Open lo hi exits P) (hPQ : ∀ g next, P g next → Q g next) :
    g.Open lo hi exits Q :=
  ⟨h.mem, h.free, fun g' next hg' => hPQ g' next (h.holds g' next hg')⟩

/-- Nothing outside of the nodes from `lo` to `hi` matters. -/
theorem congr (h : g.Open lo hi exits P) (hg : ∀ id, lo ≤ id → id < hi → g'.get? id = g.get? id) :
    g'.Open lo hi exits P := by
  refine ⟨h.mem, fun id hid n hn => ?_, fun g'' next hg'' => h.holds g'' next fun id hlo hhi => ?_⟩
  · have hm := h.mem id hid
    exact h.free id hid n (hg id hm.1 hm.2 ▸ hn)
  · rw [hg'' id hlo hhi, closed_congr (hg id hlo hhi) Iff.rfl]

/-- Two ranges side by side, the exits of both left open. -/
theorem append (h : g.Open lo mid exits P) (h' : g.Open mid hi exits' Q) (hlo : lo ≤ mid)
    (hhi : mid ≤ hi) :
    g.Open lo hi (exits ++ exits') fun g next => P g next ∧ Q g next := by
  refine ⟨fun id hid => ?_, fun id hid => ?_, fun g'' next hg'' => ⟨?_, ?_⟩⟩
  · rcases List.mem_append.1 hid with hid | hid
    · have := h.mem id hid; omega
    · have := h'.mem id hid; omega
  · rcases List.mem_append.1 hid with hid | hid
    · exact h.free id hid
    · exact h'.free id hid
  · refine h.holds g'' next fun id h1 h2 => ?_
    have hid : id ∉ exits' := fun hid => by have := h'.mem id hid; omega
    rw [hg'' id h1 (by omega), @closed_congr _ _ g g exits _ id rfl (by simp [hid])]
  · refine h'.holds g'' next fun id h1 h2 => ?_
    have hid : id ∉ exits := fun hid => by have := h.mem id hid; omega
    rw [hg'' id (by omega) h2, @closed_congr _ _ g g exits' _ id rfl (by simp [hid])]

/-- Exits that are never given a successor have none. -/
theorem close (h : g.Open lo hi exits P) : g.Open lo hi [] fun g _ => P g none := by
  refine ⟨by simp, by simp, fun g' next hg' => h.holds g' none fun id h1 h2 => ?_⟩
  rw [hg' id h1 h2]
  simp only [closed, List.not_mem_nil, if_false, Option.map_id']
  cases hn : g.get? id with
  | none => rfl
  | some n =>
    rw [Option.map_some]
    split
    · next hid => rw [← h.free id hid n hn]
    · rfl

/-- The exits are linked to a node. -/
theorem link {node : NodeId} (h : g.Open lo hi exits P)
    (hg : ∀ id, lo ≤ id → id < hi → g'.get? id = g.closed exits (some node) id) :
    g'.Open lo hi [] fun g _ => P g (some node) := by
  refine ⟨by simp, by simp, fun g'' next hg'' => h.holds g'' (some node) fun id h1 h2 => ?_⟩
  rw [hg'' id h1 h2, closed_of_not_mem (by simp), hg id h1 h2]

theorem nil : g.Open lo lo [] fun _ _ => True := ⟨by simp, by simp, fun _ _ _ => trivial⟩

end Open

end Graph

/-!
## Drafts without mistakes

What each operation on a draft does to the nodes of its graph. A mistake stays in a draft, so a
draft without mistakes at the end had none before, and every link in it has been made.
-/

namespace Graph

variable {g : Graph C H}

@[simp] theorem size_push (kind : NodeKind C H) : (g.push kind).2.size = g.size + 1 := by
  simp [push, size]

@[simp] theorem size_setKind (id : NodeId) (kind : NodeKind C H) :
    (g.setKind id kind).size = g.size := by
  simp [setKind, size]

@[simp] theorem size_link (id target : NodeId) : (g.link id target).size = g.size := by
  simp [link, size]

theorem get?_push_self (kind : NodeKind C H) : (g.push kind).2.get? g.size = some { kind } := by
  simp [push, get?, size]

theorem get?_push_of_lt (kind : NodeKind C H) {id : Nat} (h : id < g.size) :
    (g.push kind).2.get? id = g.get? id := by
  simp only [push, get?, size] at h ⊢
  rw [Array.getElem?_push_lt h, Array.getElem?_eq_getElem h]

theorem get?_setKind_self (id : NodeId) (kind : NodeKind C H) :
    (g.setKind id kind).get? id = (g.get? id).map fun n => { n with kind } := by
  simp [setKind, get?, Array.getElem?_modify]

theorem get?_setKind_of_ne (kind : NodeKind C H) {id j : NodeId} (h : j ≠ id) :
    (g.setKind id kind).get? j = g.get? j := by
  simp [setKind, get?, Array.getElem?_modify, h.symm]

theorem get?_link (id target j : NodeId) :
    (g.link id target).get? j = g.closed [id] (some target) j := by
  simp only [link, get?, closed, Array.getElem?_modify, List.mem_singleton]
  split
  · next h => simp [h]
  · next h => simp [Ne.symm h]

end Graph

namespace Draft

variable {d : Draft C H}

@[simp] theorem note_errors_ne (e : ConfigError) : (d.note e).errors ≠ [] := by simp [note]

theorem errors_of_link {id target : NodeId} (h : (d.link id target).errors = []) :
    d.errors = [] ∧ (d.link id target).graph = d.graph.link id target := by
  unfold link at h ⊢
  split at h
  · simp at h
  · exact ⟨h, rfl⟩

/-- Linking nodes to `target` one after the other. -/
theorem links_spec {target : NodeId} (exits : List NodeId)
    (h : (exits.foldl (fun d exit => d.link exit target) d).errors = []) :
    d.errors = [] ∧ (exits.foldl (fun d exit => d.link exit target) d).graph.size = d.graph.size ∧
      ∀ id, (exits.foldl (fun d exit => d.link exit target) d).graph.get? id =
        d.graph.closed exits (some target) id := by
  induction exits generalizing d with
  | nil => exact ⟨h, rfl, fun id => (Graph.closed_of_not_mem (by simp) _).symm⟩
  | cons exit exits ih =>
    rw [List.foldl_cons] at h ⊢
    obtain ⟨herr, hsize, hget⟩ := ih h
    obtain ⟨hd, hgraph⟩ := errors_of_link herr
    refine ⟨hd, by rw [hsize, hgraph, Graph.size_link], fun id => ?_⟩
    rw [hget id, hgraph, Graph.closed, Graph.get?_link, Graph.closed, Graph.closed]
    cases d.graph.get? id with
    | none => rfl
    | some n =>
      simp only [Option.map_some, List.mem_cons]
      by_cases h1 : id = exit <;> by_cases h2 : id ∈ exits <;> simp [h1, h2]

end Draft

/-- The exits that adding a node to a chain links. -/
def Chain.linked (chain : Chain) (place : Place) : List NodeId :=
  if place.isolated || chain.entry.isNone then [] else chain.exits

/-- A chain after `node` has been added to it. -/
def Chain.add (chain : Chain) (place : Place) (node : NodeId) : Chain :=
  if place.isolated then
    { chain with entry := chain.entry.or (some node), items := chain.items ++ [node] }
  else { chain with entry := chain.entry.or (some node), exits := [node] }

theorem Draft.attach_fst (d : Draft C H) (place : Place) (chain : Chain) (node : NodeId) :
    (d.attach place chain node).1 = chain.add place node := by
  unfold attach Chain.add
  split
  · rfl
  · cases chain.entry <;> rfl

theorem Draft.attach_spec {d : Draft C H} {place : Place} {chain : Chain} {node : NodeId}
    (h : (d.attach place chain node).2.errors = []) :
    d.errors = [] ∧ (d.attach place chain node).2.graph.size = d.graph.size ∧
      ∀ id, (d.attach place chain node).2.graph.get? id =
        d.graph.closed (chain.linked place) (some node) id := by
  unfold attach at h ⊢
  unfold Chain.linked
  by_cases hi : place.isolated
  · simp only [hi, if_true, Bool.true_or] at h ⊢
    exact ⟨h, trivial, fun id => (Graph.closed_of_not_mem (by simp) _).symm⟩
  · simp only [hi, Bool.false_or] at h ⊢
    cases he : chain.entry with
    | none =>
      simp only [he] at h ⊢
      exact ⟨h, rfl, fun id => (Graph.closed_of_not_mem (by simp) _).symm⟩
    | some e =>
      simp only [he] at h ⊢
      exact links_spec chain.exits h

end DurableWorkflow

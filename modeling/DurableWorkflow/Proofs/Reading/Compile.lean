import DurableWorkflow.Proofs.Graph.Tract
import DurableWorkflow.Proofs.Reading.Layout

/-!
# Compiled programs lie in their graphs

A program that compiles lies in its graph, from the root to nowhere, and the graph has as many nodes
as the program says. What carries the induction is that a chain under construction is `Open`: the
nodes added so far hold its items whatever its exits are linked to later.
-/

namespace DurableWorkflow

variable {C H : Type}

namespace Graph.Open

variable {g : Graph C H} {lo hi : Nat} {exits exits' : List NodeId}
  {P : Graph C H → Option NodeId → Prop}

theorem exits_congr (h : g.Open lo hi exits P) (he : ∀ id, id ∈ exits' ↔ id ∈ exits) :
    g.Open lo hi exits' P := by
  refine ⟨fun id hid => h.mem id ((he id).1 hid), fun id hid => h.free id ((he id).1 hid),
    fun g' next hg' => h.holds g' next fun id h1 h2 => ?_⟩
  rw [hg' id h1 h2, closed_congr rfl (he id)]

/-- A node whose successor is still to come. -/
theorem single {node : Nat} {kind : NodeKind C H} (h : g.get? node = some { kind }) :
    g.Open node (node + 1) [node] fun g next => g.get? node = some ⟨kind, next⟩ := by
  refine ⟨fun id hid => ?_, fun id hid n hn => ?_, fun g' next hg' => ?_⟩
  · obtain rfl := List.mem_singleton.1 hid
    omega
  · obtain rfl := List.mem_singleton.1 hid
    rw [h] at hn
    cases hn
    rfl
  · rw [hg' node (Nat.le_refl _) (Nat.lt_succ_self _), closed, h]
    simp

end Graph.Open

section

variable (registry : Registry C H)

/-- What compiling an item does: its nodes come after those of the draft, beginning with the one it
lies at; the exits of the chain are linked to that node; its own exits are open. -/
structure Item.Compiled (item : Item C H) (place : Place) (chain : Chain) (d : Draft C H)
    (r : Chain × Draft C H) : Prop where
  clean : d.errors = []
  size : r.2.graph.size = d.graph.size + item.nodes
  old : ∀ id : Nat, id < d.graph.size →
    r.2.graph.get? id = d.graph.closed (chain.linked place) (some d.graph.size) id
  entry : r.1.entry = chain.entry.or (some d.graph.size)
  items : place.isolated = true → r.1.items = chain.items ++ [d.graph.size]
  opened : ∃ exits, (place.isolated = false → r.1.exits = exits) ∧
    r.2.graph.Open d.graph.size r.2.graph.size exits fun g next =>
      item.At registry g d.graph.size next ∧
        g.Strip place.inParallel [d.graph.size] d.graph.size r.2.graph.size next

/-- A node with what belongs to it in place is attached to a chain. -/
theorem Item.Compiled.of_attach {item : Item C H} {place : Place} {chain : Chain}
    {d d' : Draft C H} {kind : NodeKind C H} {Q : Graph C H → Prop}
    (hclean : d'.errors = [] → d.errors = [])
    (hsize : d'.graph.size = d.graph.size + item.nodes)
    (hold : ∀ id : Nat, id < d.graph.size → d'.graph.get? id = d.graph.get? id)
    (hkind : d'.graph.get? d.graph.size = some { kind })
    (hopen : d'.graph.Open (d.graph.size + 1) d'.graph.size [] fun g _ => Q g)
    (hAt : ∀ g next, g.get? d.graph.size = some ⟨kind, next⟩ → Q g →
      item.At registry g d.graph.size next ∧
        g.Strip place.inParallel [d.graph.size] d.graph.size d'.graph.size next)
    (hlt : ∀ id : Nat, id ∈ chain.linked place → id < d.graph.size)
    (hnodes : 0 < item.nodes)
    (h : (d'.attach place chain d.graph.size).2.errors = []) :
    item.Compiled registry place chain d (d'.attach place chain d.graph.size) := by
  obtain ⟨hd', hs, hget⟩ := Draft.attach_spec h
  have hfst := Draft.attach_fst d' place chain d.graph.size
  have hnew : ∀ id : Nat, d.graph.size ≤ id →
      (d'.attach place chain d.graph.size).2.graph.get? id = d'.graph.get? id := fun id hid => by
    rw [hget id, Graph.closed_of_not_mem]
    intro hmem
    have := hlt id hmem
    omega
  refine ⟨hclean hd', by rw [hs, hsize], fun id hid => ?_, ?_, fun hi => ?_, [d.graph.size],
    fun hi => ?_, ?_⟩
  · rw [hget id, Graph.closed_congr (hold id hid) Iff.rfl]
  · rw [hfst, Chain.add]
    split <;> rfl
  · rw [hfst, Chain.add, if_pos hi]
  · rw [hfst, Chain.add, if_neg (by simp [hi])]
  · rw [hs]
    have hboth := (Graph.Open.single hkind).append hopen (by omega) (by omega)
    refine (hboth.congr fun id h1 _ => hnew id h1).mono fun g next ⟨h1, h2⟩ => ?_
    exact hAt g next h1 h2

/-- An item that is one node. -/
theorem Item.Compiled.of_push {item : Item C H} {place : Place} {chain : Chain} {d : Draft C H}
    {kind : NodeKind C H} (hnodes : item.nodes = 1)
    (hAt : ∀ g next, g.get? d.graph.size = some ⟨kind, next⟩ → item.At registry g d.graph.size next)
    (hleaf : kind.entries ++ kind.children = [])
    (hsteady : ∀ s, kind = .step s → place.inParallel = true → s.maySuspend = false)
    (hlt : ∀ id : Nat, id ∈ chain.linked place → id < d.graph.size)
    (h : ((d.push kind).2.attach place chain d.graph.size).2.errors = []) :
    item.Compiled registry place chain d ((d.push kind).2.attach place chain d.graph.size) := by
  refine .of_attach registry (Q := fun _ => True) id (by simp [Draft.push, hnodes])
    (fun id hid => Graph.get?_push_of_lt kind hid) (Graph.get?_push_self kind) ?_
    (fun g next hg _ => ⟨hAt g next hg, ?_⟩) hlt (by omega) h
  · simp only [Draft.push, Graph.size_push]
    exact Graph.Open.nil
  · rw [Draft.push, Graph.size_push]
    exact .leaf hg hleaf fun s hs hplace => hsteady s hs hplace

theorem addStep_compiled {item : Item C H} {place : Place} {chain : Chain} {d : Draft C H}
    {s : Step C H} (hnodes : item.nodes = 1)
    (hAt : ∀ g next, g.get? d.graph.size = some ⟨.step s, next⟩ →
      item.At registry g d.graph.size next)
    (hlt : ∀ id : Nat, id ∈ chain.linked place → id < d.graph.size)
    (h : (d.addStep place chain s).2.errors = []) :
    item.Compiled registry place chain d (d.addStep place chain s) := by
  unfold Draft.addStep at h ⊢
  split at h
  · simp at h
  · next hp =>
    rw [if_neg hp]
    refine .of_push registry hnodes hAt rfl (fun s' hs' hplace => ?_) hlt h
    cases hs'
    simpa [hplace] using hp

/-- What compiling a block of chains does: nothing to the nodes before it, and what it adds makes
`P` true once its exits are linked. -/
structure Block (d d' : Draft C H) (nodes : Nat) (exits : List NodeId)
    (P : Graph C H → Option NodeId → Prop) : Prop where
  clean : d.errors = []
  size : d'.graph.size = d.graph.size + nodes
  old : ∀ id : Nat, id < d.graph.size → d'.graph.get? id = d.graph.get? id
  opened : d'.graph.Open d.graph.size d'.graph.size exits P

/-- A chain that began at `lo` holds `items`. -/
structure ChainHolds (steady : Bool) (lo : Nat) (items : List (Item C H)) (chain : Chain)
    (g : Graph C H) : Prop where
  le : lo ≤ g.size
  empty : chain.entry = none ↔ items = []
  exits : items = [] → chain.exits = []
  opened : g.Open lo g.size chain.exits fun g' next =>
    ItemsAt registry g' chain.entry next items ∧ g'.Strip steady chain.entry.toList lo g.size next

theorem ChainHolds.nil (steady : Bool) (g : Graph C H) :
    ChainHolds registry steady g.size [] {} g :=
  ⟨Nat.le_refl _, by simp, fun _ => rfl,
    (Graph.Open.nil).mono fun _ next _ => ⟨rfl, fun _ => .nil next⟩⟩

variable {registry}

theorem ChainHolds.linked {steady : Bool} {lo : Nat} {items : List (Item C H)} {chain : Chain}
    {g : Graph C H} {place : Place} (hplace : place.isolated = false)
    (h : ChainHolds registry steady lo items chain g) :
    chain.linked place = chain.exits := by
  unfold Chain.linked
  cases he : chain.entry with
  | none => simp [h.exits (h.empty.1 he)]
  | some e => simp [hplace]

/-- One more item at the end of a chain. -/
theorem ChainHolds.concat {lo : Nat} {items : List (Item C H)} {item : Item C H} {chain : Chain}
    {d : Draft C H} {r : Chain × Draft C H} {place : Place} (hplace : place.isolated = false)
    (h : ChainHolds registry place.inParallel lo items chain d.graph)
    (hitem : item.Compiled registry place chain d r) :
    ChainHolds registry place.inParallel lo (items ++ [item]) r.1 r.2.graph ∧
      ∀ id : Nat, id < lo → r.2.graph.get? id = d.graph.get? id := by
  obtain ⟨exits, hexits, hopen⟩ := hitem.opened
  have hold := hitem.old
  rw [h.linked hplace] at hold
  have hle : lo ≤ d.graph.size := h.le
  have hgrow : d.graph.size ≤ r.2.graph.size := by have := hitem.size; omega
  refine ⟨⟨by omega, ?_, by simp, ?_⟩, fun id hid => ?_⟩
  · rw [hitem.entry]
    cases chain.entry <;> simp
  · have hlink := h.opened.link fun id _ hid => hold id hid
    have hboth := hlink.append hopen hle hgrow
    rw [hexits hplace]
    refine hboth.mono fun g next ⟨⟨h1, hstrip⟩, h2, hstrip'⟩ => ⟨?_, ?_⟩
    · rw [hitem.entry]
      cases he : chain.entry with
      | none =>
        obtain rfl : items = [] := h.empty.1 he
        exact ⟨d.graph.size, none, rfl, h2, rfl⟩
      | some e =>
        have hne : items ≠ [] := fun hi => by simp [h.empty.2 hi] at he
        rw [he] at h1
        exact h1.concat hne h2
    · refine (hstrip.link hstrip').fewer fun m hm => ?_
      rw [hitem.entry] at hm
      cases he : chain.entry <;> simp_all
  · rw [hold id (by omega), Graph.closed_of_not_mem]
    intro hmem
    have := h.opened.mem id hmem
    omega

namespace Block

variable {d d₁ d₂ : Draft C H} {m n : Nat} {exits exits' : List NodeId}
  {P Q : Graph C H → Option NodeId → Prop}

theorem le (h : Block d d₁ n exits P) : d.graph.size ≤ d₁.graph.size := by
  have := h.size
  omega

theorem append (h : Block d d₁ m exits P) (h' : Block d₁ d₂ n exits' Q) :
    Block d d₂ (m + n) (exits ++ exits') fun g next => P g next ∧ Q g next := by
  have h1 := h.le
  have h2 := h'.le
  refine ⟨h.clean, ?_, fun id hid => ?_, ?_⟩
  · rw [h'.size, h.size, Nat.add_assoc]
  · rw [h'.old id (by omega), h.old id hid]
  · exact (h.opened.congr fun id _ hid => h'.old id hid).append h'.opened h1 h2

theorem mono (h : Block d d₁ n exits P) (hPQ : ∀ g next, P g next → Q g next) :
    Block d d₁ n exits Q :=
  { h with opened := h.opened.mono hPQ }

theorem exits_congr (h : Block d d₁ n exits P) (he : ∀ id, id ∈ exits' ↔ id ∈ exits) :
    Block d d₁ n exits' P :=
  { h with opened := h.opened.exits_congr he }

/-- Exits that are never linked. -/
theorem close (h : Block d d₁ n exits P) : Block d d₁ n [] fun g _ => P g none :=
  { h with opened := h.opened.close }

theorem nil (h : d.errors = []) : Block d d 0 [] fun _ _ => True :=
  ⟨h, rfl, fun _ _ => rfl, Graph.Open.nil⟩

theorem push (kind : NodeKind C H) (h : d.errors = []) :
    Block d (d.push kind).2 1 [d.graph.size] fun g next =>
      g.get? d.graph.size = some ⟨kind, next⟩ := by
  refine ⟨h, Graph.size_push _, fun id hid => Graph.get?_push_of_lt _ hid, ?_⟩
  rw [Draft.push, Graph.size_push]
  exact Graph.Open.single (Graph.get?_push_self _)

end Block

theorem getD_entry (chain : Option Chain) : (chain.getD {}).entry = chain.bind (·.entry) := by
  cases chain <;> rfl

/-- A chain that was compiled from nothing is a block. -/
theorem Block.of_chain {steady : Bool} {items : List (Item C H)} {chain : Chain} {d d' : Draft C H}
    (hclean : d.errors = [])
    (h : d'.graph.size = d.graph.size + itemsNodes items ∧
      ChainHolds registry steady d.graph.size ([] ++ items) chain d'.graph ∧
      ∀ id : Nat, id < d.graph.size → d'.graph.get? id = d.graph.get? id) :
    Block d d' (itemsNodes items) chain.exits fun g next =>
      ItemsAt registry g chain.entry next items ∧
        g.Strip steady chain.entry.toList d.graph.size d'.graph.size next :=
  ⟨hclean, h.1, h.2.2, h.2.1.opened⟩

/-- The node of a choice is an exit itself where an arm is missing. -/
theorem Graph.Open.choice {g : Graph C H} {node : Nat} {holds : Predicate C}
    {t e : Option NodeId} (h : g.get? node = some { kind := .conditional holds t e }) :
    g.Open node (node + 1) (if t.isNone || e.isNone then [node] else []) fun g next =>
      ∃ own, g.get? node = some ⟨.conditional holds t e, own⟩ ∧
        (t = none ∨ e = none → own = next) ∧ (own = none ∨ own = next) := by
  have hone := Graph.Open.single h
  split
  · exact hone.mono fun g next hg => ⟨next, hg, fun _ => rfl, .inr rfl⟩
  · next hboth =>
    refine hone.close.mono fun g next hg => ⟨none, hg, fun hmiss => absurd ?_ hboth, .inl rfl⟩
    simpa using hmiss

/-- A choice: the exits of its chain are linked to its node, then its arms are added, then it learns
where they begin. -/
theorem Item.Compiled.of_arms {holds : Predicate C} {arms : List (Arm C H)} {place : Place}
    {chain : Chain} {d d₂ : Draft C H} {done : Arms} {t e : Option NodeId}
    (ht : done.whenTrue.bind (·.entry) = t) (he : done.whenFalse.bind (·.entry) = e)
    (hlt : ∀ id : Nat, id ∈ chain.linked place → id < d.graph.size)
    (harms : Block ((d.push (.conditional holds none none)).2.attach place chain d.graph.size).2 d₂
      (armsNodes arms) ((done.whenTrue.getD {}).exits ++ (done.whenFalse.getD {}).exits)
      fun g next => (ArmAt registry g true t next arms ∧ ArmAt registry g false e next arms) ∧
        g.Strip place.inParallel (t.toList ++ e.toList) (d.graph.size + 1) d₂.graph.size next) :
    (Item.choice holds arms).Compiled registry place chain d
      (if place.isolated then chain.add place d.graph.size
        else { chain.add place d.graph.size with exits := done.exits d.graph.size },
      d₂.setKind d.graph.size (.conditional holds t e)) := by
  obtain ⟨hd, hsize, hget⟩ := Draft.attach_spec harms.clean
  have hpush : (d.push (.conditional holds none none)).2.graph.size = d.graph.size + 1 :=
    Graph.size_push _
  have hsize₂ := harms.size
  have hold : ∀ id : Nat, id ≠ d.graph.size →
      (d₂.setKind d.graph.size (.conditional holds t e)).graph.get? id = d₂.graph.get? id :=
    fun id hid => Graph.get?_setKind_of_ne _ hid
  have hnode : (d₂.setKind d.graph.size (.conditional holds t e)).graph.get? d.graph.size =
      some ⟨.conditional holds t e, none⟩ := by
    rw [Draft.setKind, Graph.get?_setKind_self, harms.old _ (by omega), hget,
      Graph.closed_of_not_mem fun hmem => absurd (hlt _ hmem) (Nat.lt_irrefl _)]
    simp only [Draft.push, Graph.get?_push_self, Option.map_some]
  refine ⟨hd, ?_, fun id hid => ?_, ?_, fun hi => ?_, done.exits d.graph.size, fun hi => ?_, ?_⟩
  · simp only [Draft.setKind, Graph.size_setKind, Item.nodes]
    omega
  · rw [hold id (Nat.ne_of_lt hid), harms.old id (by omega), hget id]
    exact Graph.closed_congr (Graph.get?_push_of_lt _ hid) Iff.rfl _
  · simp only [Chain.add]
    split <;> rfl
  · simp only [hi, if_true, Chain.add]
  · simp only [hi, Bool.false_eq_true, if_false]
  · have hrest := harms.opened.congr fun id hid _ => hold id (by omega)
    rw [hsize, hpush] at hrest
    have hboth := (Graph.Open.choice hnode).append hrest (by omega) (by omega)
    simp only [Draft.setKind, Graph.size_setKind] at hboth ⊢
    refine (hboth.mono fun g next h => ?_).exits_congr fun id => ?_
    · obtain ⟨⟨own, hg, hown, hown'⟩, ⟨hat, hae⟩, hstrip⟩ := h
      exact ⟨⟨t, e, own, hg, hat, hae, hown⟩, hstrip.choice hg hown'⟩
    · simp only [Arms.exits, getD_entry, ht, he, List.mem_append]
      exact or_comm

/-- A block whose children are known once they have been added. -/
theorem Item.Compiled.of_block {item : Item C H} {place : Place} {chain : Chain} {d d' : Draft C H}
    {kind₀ kind : NodeKind C H} {n : Nat} {Q : Graph C H → Prop} (hnodes : item.nodes = 1 + n)
    (hblock : Block (d.push kind₀).2 d' n [] fun g _ => Q g)
    (hAt : ∀ g next, g.get? d.graph.size = some ⟨kind, next⟩ → Q g →
      item.At registry g d.graph.size next ∧
        g.Strip place.inParallel [d.graph.size] d.graph.size d'.graph.size next)
    (hlt : ∀ id : Nat, id ∈ chain.linked place → id < d.graph.size)
    (h : ((d'.setKind d.graph.size kind).attach place chain d.graph.size).2.errors = []) :
    item.Compiled registry place chain d
      ((d'.setKind d.graph.size kind).attach place chain d.graph.size) := by
  have hpush : (d.push kind₀).2.graph.size = d.graph.size + 1 := Graph.size_push _
  have hsize := hblock.size
  have hold : ∀ id : Nat, id ≠ d.graph.size →
      (d'.setKind d.graph.size kind).graph.get? id = d'.graph.get? id :=
    fun id hid => Graph.get?_setKind_of_ne _ hid
  have hAt' (g : Graph C H) (next : Option NodeId) (hg : g.get? d.graph.size = some ⟨kind, next⟩)
      (hq : Q g) : item.At registry g d.graph.size next ∧ g.Strip place.inParallel [d.graph.size]
        d.graph.size (d'.setKind d.graph.size kind).graph.size next := by
    rw [Draft.setKind, Graph.size_setKind]
    exact hAt g next hg hq
  refine .of_attach registry (Q := Q) (fun _ => hblock.clean) ?_ (fun id hid => ?_) ?_ ?_ hAt' hlt
    (by omega) h
  · simp only [Draft.setKind, Graph.size_setKind]
    omega
  · rw [hold id (Nat.ne_of_lt hid), hblock.old id (by omega)]
    exact Graph.get?_push_of_lt _ hid
  · rw [Draft.setKind, Graph.get?_setKind_self, hblock.old _ (by omega)]
    simp only [Draft.push, Graph.get?_push_self, Option.map_some]
  · have hrest := hblock.opened.congr fun id hid _ => hold id (by omega)
    rw [hpush] at hrest
    simpa only [Draft.setKind, Graph.size_setKind] using hrest

/-- A mistake that is noted on a condition has not been made. -/
theorem errors_of_guarded {d : Draft C H} {b : Bool} {e : ConfigError}
    (h : (if b then d.note e else d).errors = []) : d.errors = [] ∧ b = false := by
  cases b with
  | true => simp at h
  | false => exact ⟨h, rfl⟩

variable (registry)

theorem Item.compile_parallel (place : Place) (chain : Chain) (d : Draft C H)
    (branches : List (Branch C H)) {r : List NodeId × Draft C H}
    (hr : compileBranches registry [] (d.push (.parallel [])).2 branches = r) :
    (Item.parallel branches).compile registry place chain d =
      ((if r.1.isEmpty then r.2.note .emptyParallel else r.2).setKind d.graph.size
        (.parallel r.1)).attach place chain d.graph.size := by
  rw [Item.compile, ← hr]
  rfl

theorem Item.compile_sequence (place : Place) (chain : Chain) (d : Draft C H)
    (items : List (Item C H)) {r : Chain × Draft C H}
    (hr : compileItems registry ⟨place.inParallel, true⟩ {} (d.push (.sequence [])).2 items = r) :
    (Item.sequence items).compile registry place chain d =
      ((if r.1.items.isEmpty then r.2.note .emptySequence else r.2).setKind d.graph.size
        (.sequence r.1.items)).attach place chain d.graph.size := by
  rw [Item.compile, ← hr]
  rfl

theorem compileBranches_chain (children : List NodeId) (d : Draft C H) (items : List (Item C H))
    (branches : List (Branch C H)) {r : Chain × Draft C H}
    (hr : compileItems registry ⟨true, false⟩ {} d items = r) :
    compileBranches registry children d (.chain items :: branches) =
      match r.1.entry with
      | some entry => compileBranches registry (children ++ [entry]) r.2 branches
      | none => compileBranches registry children (r.2.note .emptyBranch) branches := by
  subst hr
  rfl

/-! ### Mistakes stay -/

namespace Draft

variable {d : Draft C H}

theorem note_grows (d : Draft C H) (e : ConfigError) : d.errors <+: (d.note e).errors :=
  List.prefix_append ..

theorem guarded_grows (d : Draft C H) (b : Bool) (e : ConfigError) :
    d.errors <+: (if b then d.note e else d).errors := by
  cases b
  · exact List.prefix_rfl
  · exact d.note_grows e

theorem link_grows (d : Draft C H) (id target : NodeId) : d.errors <+: (d.link id target).errors := by
  unfold link
  split
  · exact d.note_grows _
  · exact List.prefix_rfl

theorem links_grows (d : Draft C H) (exits : List NodeId) (target : NodeId) :
    d.errors <+: (exits.foldl (fun d exit => d.link exit target) d).errors := by
  induction exits generalizing d with
  | nil => exact List.prefix_rfl
  | cons exit exits ih => exact (d.link_grows exit target).trans (ih _)

theorem attach_grows (d : Draft C H) (place : Place) (chain : Chain) (node : NodeId) :
    d.errors <+: (d.attach place chain node).2.errors := by
  unfold attach
  split
  · exact List.prefix_rfl
  · split
    · exact List.prefix_rfl
    · exact d.links_grows chain.exits node

theorem addStep_grows (d : Draft C H) (place : Place) (chain : Chain) (s : Step C H) :
    d.errors <+: (d.addStep place chain s).2.errors := by
  unfold addStep
  split
  · exact d.note_grows _
  · exact (d.push (.step s)).2.attach_grows place chain _

end Draft

mutual

theorem Item.compile_grows (place : Place) (chain : Chain) (d : Draft C H) :
    (item : Item C H) → d.errors <+: (item.compile registry place chain d).2.errors
  | .step s => by
    rw [Item.compile]
    exact d.addStep_grows place chain s
  | .registered type => by
    rw [Item.compile]
    split
    · exact d.addStep_grows place chain _
    · exact d.note_grows _
  | .delay duration => by
    rw [Item.compile]
    exact (d.push (.delay duration)).2.attach_grows place chain _
  | .choice holds arms => by
    rw [Item.compile]
    exact ((d.push (.conditional holds none none)).2.attach_grows place chain _).trans
      (compileArms_grows place {} _ arms)
  | .parallel branches => by
    rw [Item.compile_parallel registry place chain d branches rfl]
    refine (compileBranches_grows [] (d.push (.parallel [])).2 branches).trans ?_
    exact (Draft.guarded_grows _ _ .emptyParallel).trans (Draft.attach_grows (.setKind _ _ _) ..)
  | .sequence items => by
    rw [Item.compile_sequence registry place chain d items rfl]
    refine (compileItems_grows ⟨place.inParallel, true⟩ {} (d.push (.sequence [])).2 items).trans ?_
    exact (Draft.guarded_grows _ _ .emptySequence).trans (Draft.attach_grows (.setKind _ _ _) ..)

theorem compileItems_grows (place : Place) (chain : Chain) (d : Draft C H) :
    (items : List (Item C H)) → d.errors <+: (compileItems registry place chain d items).2.errors
  | [] => by
    simp [compileItems]
  | item :: items => by
    rw [compileItems]
    exact (item.compile_grows place chain d).trans (compileItems_grows place _ _ items)

theorem compileArms_grows (place : Place) (done : Arms) (d : Draft C H) :
    (arms : List (Arm C H)) → d.errors <+: (compileArms registry place done d arms).2.errors
  | [] => by
    simp [compileArms]
  | .whenTrue items :: arms => by
    rw [compileArms]
    split
    · exact (d.note_grows _).trans (compileArms_grows place _ _ arms)
    · exact (compileItems_grows _ {} d items).trans (compileArms_grows place _ _ arms)
  | .whenFalse items :: arms => by
    rw [compileArms]
    split
    · exact (d.note_grows _).trans (compileArms_grows place _ _ arms)
    · exact (compileItems_grows _ {} d items).trans (compileArms_grows place _ _ arms)

theorem compileBranches_grows (children : List NodeId) (d : Draft C H) :
    (branches : List (Branch C H)) →
      d.errors <+: (compileBranches registry children d branches).2.errors
  | [] => by
    simp [compileBranches]
  | .single s :: branches => by
    rw [compileBranches]
    split
    · exact (d.note_grows _).trans (compileBranches_grows _ _ branches)
    · exact compileBranches_grows _ (d.push (.step s)).2 branches
  | .chain items :: branches => by
    rw [compileBranches_chain registry children d items branches rfl]
    have hitems := compileItems_grows ⟨true, false⟩ {} d items
    split
    · exact hitems.trans (compileBranches_grows _ _ branches)
    · exact hitems.trans ((Draft.note_grows _ _).trans (compileBranches_grows _ _ branches))

end

theorem Item.errors_of_compile (place : Place) (chain : Chain) (d : Draft C H) (item : Item C H)
    (h : (item.compile registry place chain d).2.errors = []) : d.errors = [] :=
  List.prefix_nil.1 (h ▸ item.compile_grows registry place chain d)

theorem errors_of_compileItems (place : Place) (chain : Chain) (d : Draft C H)
    (items : List (Item C H)) (h : (compileItems registry place chain d items).2.errors = []) :
    d.errors = [] :=
  List.prefix_nil.1 (h ▸ compileItems_grows registry place chain d items)

theorem errors_of_compileArms (place : Place) (done : Arms) (d : Draft C H)
    (arms : List (Arm C H)) (h : (compileArms registry place done d arms).2.errors = []) :
    d.errors = [] :=
  List.prefix_nil.1 (h ▸ compileArms_grows registry place done d arms)

theorem errors_of_compileBranches (children : List NodeId) (d : Draft C H)
    (branches : List (Branch C H)) (h : (compileBranches registry children d branches).2.errors = []) :
    d.errors = [] :=
  List.prefix_nil.1 (h ▸ compileBranches_grows registry children d branches)

mutual

theorem Item.compiled (place : Place) (chain : Chain) (d : Draft C H)
    (hlt : ∀ id : Nat, id ∈ chain.linked place → id < d.graph.size) :
    (item : Item C H) → (h : (item.compile registry place chain d).2.errors = []) →
      item.Compiled registry place chain d (item.compile registry place chain d)
  | .step s, h => by
    rw [Item.compile] at h ⊢
    exact addStep_compiled registry rfl (fun g next hg => hg) hlt h
  | .registered type, h => by
    rw [Item.compile] at h ⊢
    cases hs : registry.resolve type with
    | none => simp [hs] at h
    | some s =>
      simp only [hs] at h ⊢
      exact addStep_compiled registry rfl (fun g next hg => ⟨s, hs, hg⟩) hlt h
  | .delay _, h => by
    rw [Item.compile] at h ⊢
    exact .of_push registry rfl (fun g next hg => hg) rfl (by simp) hlt h
  | .choice holds arms, h => by
    rw [Item.compile] at h ⊢
    obtain ⟨t, e, ht, he, -, -, harms⟩ := compileArms_block place arms {} _ h
    simp only [Option.none_or] at ht he
    have hfst := Draft.attach_fst (d.push (.conditional holds none none)).2 place chain d.graph.size
    rw [← ht, ← he] at harms
    have hpush : (d.push (.conditional holds none none)).2.graph.size = d.graph.size + 1 :=
      Graph.size_push _
    have hsize := (Draft.attach_spec harms.clean).2.1.trans hpush
    have hdone := Item.Compiled.of_arms (d := d) rfl rfl hlt
      (harms.mono fun g next ⟨ht, he, hstrip⟩ => ⟨⟨ht rfl, he rfl⟩, hsize ▸ hstrip⟩)
    rw [← hfst] at hdone
    exact hdone
  | .parallel branches, h => by
    have hblocks := compileBranches_block branches [] (d.push (.parallel [])).2
    rw [Item.compile_parallel registry place chain d branches rfl] at h ⊢
    obtain ⟨hd, hne⟩ := errors_of_guarded (Draft.attach_spec h).1
    obtain ⟨children, hchildren, hblock⟩ := hblocks hd
    have hpush : (d.push (.parallel [])).2.graph.size = d.graph.size + 1 := Graph.size_push _
    rw [if_neg (by simp [hne]), hchildren] at h ⊢
    refine .of_block rfl hblock (fun g next hg hq => ?_) hlt h
    exact ⟨⟨children, hg, hq.1⟩, (hpush ▸ hq.2).parallel hg⟩
  | .sequence items, h => by
    have hparts := compileItems_parts ⟨place.inParallel, true⟩ rfl items {}
      (d.push (.sequence [])).2
    rw [Item.compile_sequence registry place chain d items rfl] at h ⊢
    obtain ⟨hd, hne⟩ := errors_of_guarded (Draft.attach_spec h).1
    obtain ⟨children, hchildren, hblock⟩ := hparts hd
    have hpush : (d.push (.sequence [])).2.graph.size = d.graph.size + 1 := Graph.size_push _
    rw [if_neg (by simp [hne]), hchildren] at h ⊢
    refine .of_block rfl hblock (fun g next hg hq => ?_) hlt h
    exact ⟨⟨children, hg, hq.1⟩, (hpush ▸ hq.2).sequence hg⟩

/-- Items added to a chain whose items are linked. -/
theorem compileItems_chain (place : Place) (hplace : place.isolated = false) (lo : Nat) :
    (items : List (Item C H)) → (chain : Chain) → (d : Draft C H) → (done : List (Item C H)) →
      (hc : ChainHolds registry place.inParallel lo done chain d.graph) →
      (h : (compileItems registry place chain d items).2.errors = []) →
      (compileItems registry place chain d items).2.graph.size = d.graph.size + itemsNodes items ∧
      ChainHolds registry place.inParallel lo (done ++ items)
        (compileItems registry place chain d items).1
        (compileItems registry place chain d items).2.graph ∧
      ∀ id : Nat, id < lo →
        (compileItems registry place chain d items).2.graph.get? id = d.graph.get? id
  | [], chain, d, done, hc, h => by
    rw [compileItems] at h ⊢
    exact ⟨rfl, by rwa [List.append_nil], fun _ _ => rfl⟩
  | item :: items, chain, d, done, hc, h => by
    rw [compileItems] at h ⊢
    have hd := errors_of_compileItems registry place _ _ items h
    have hlt : ∀ id : Nat, id ∈ chain.linked place → id < d.graph.size := fun id hid =>
      (hc.opened.mem id (hc.linked hplace ▸ hid)).2
    have hitem := item.compiled place chain d hlt hd
    obtain ⟨hc', hold⟩ := hc.concat hplace hitem
    obtain ⟨hsize, hrest, hold'⟩ := compileItems_chain place hplace lo items _ _ _ hc' h
    refine ⟨?_, by rwa [List.append_cons], fun id hid => ?_⟩
    · rw [hsize, hitem.size, itemsNodes, Nat.add_assoc]
    · rw [hold' id hid, hold id hid]

/-- Items that are chains of their own. -/
theorem compileItems_parts (place : Place) (hplace : place.isolated = true) :
    (items : List (Item C H)) → (chain : Chain) → (d : Draft C H) →
      (h : (compileItems registry place chain d items).2.errors = []) →
      ∃ children, (compileItems registry place chain d items).1.items = chain.items ++ children ∧
        Block d (compileItems registry place chain d items).2 (itemsNodes items) []
          fun g _ => PartsAt registry g children items ∧ g.Row place.inParallel children
            d.graph.size (compileItems registry place chain d items).2.graph.size
  | [], chain, d, h => by
    rw [compileItems] at h ⊢
    exact ⟨[], by simp, (Block.nil h).mono fun _ _ _ => ⟨rfl, .nil⟩⟩
  | item :: items, chain, d, h => by
    rw [compileItems] at h ⊢
    have hd := errors_of_compileItems registry place _ _ items h
    have hlinked : chain.linked place = [] := by simp [Chain.linked, hplace]
    have hitem := item.compiled place chain d (by simp [hlinked]) hd
    obtain ⟨exits, -, hopen⟩ := hitem.opened
    have hold : ∀ id : Nat, id < d.graph.size →
        (item.compile registry place chain d).2.graph.get? id = d.graph.get? id := fun id hid => by
      rw [hitem.old id hid, hlinked, Graph.closed_of_not_mem (by simp)]
    have hone : Block d (item.compile registry place chain d).2 item.nodes [] _ :=
      ⟨hitem.clean, hitem.size, hold, hopen.close⟩
    obtain ⟨children, hchildren, hrest⟩ := compileItems_parts place hplace items _ _ h
    refine ⟨d.graph.size :: children, ?_, (hone.append hrest).mono fun g next h => ?_⟩
    · rw [hchildren, hitem.items hplace, List.append_assoc, List.singleton_append]
    · obtain ⟨⟨h1, hstrip⟩, h2, hrow⟩ := h
      exact ⟨⟨d.graph.size, children, rfl, h1, h2⟩, hrow.cons hstrip⟩

/-- The arms of a choice; a side counts if it has not been configured before. -/
theorem compileArms_block (place : Place) :
    (arms : List (Arm C H)) → (done : Arms) → (d : Draft C H) →
      (h : (compileArms registry place done d arms).2.errors = []) →
      ∃ t e : Option Chain,
        (compileArms registry place done d arms).1.whenTrue = done.whenTrue.or t ∧
        (compileArms registry place done d arms).1.whenFalse = done.whenFalse.or e ∧
        (done.whenTrue.isSome → t = none) ∧ (done.whenFalse.isSome → e = none) ∧
        Block d (compileArms registry place done d arms).2 (armsNodes arms)
          ((t.getD {}).exits ++ (e.getD {}).exits) fun g next =>
            (done.whenTrue = none → ArmAt registry g true (t.bind (·.entry)) next arms) ∧
            (done.whenFalse = none → ArmAt registry g false (e.bind (·.entry)) next arms) ∧
            g.Strip place.inParallel ((t.bind (·.entry)).toList ++ (e.bind (·.entry)).toList)
              d.graph.size (compileArms registry place done d arms).2.graph.size next
  | [], done, d, h => by
    rw [compileArms] at h ⊢
    exact ⟨none, none, by simp, by simp, fun _ => rfl, fun _ => rfl,
      (Block.nil h).mono fun _ next _ => ⟨fun _ => rfl, fun _ => rfl, fun _ => .nil next⟩⟩
  | .whenTrue items :: arms, done, d, h => by
    rw [compileArms] at h ⊢
    split at h
    · exact absurd (errors_of_compileArms registry place _ _ arms h) (Draft.note_errors_ne _)
    · next hnone =>
      have hd := errors_of_compileArms registry place _ _ arms h
      have hinner := Block.of_chain (errors_of_compileItems registry _ {} d items hd)
        (compileItems_chain ⟨place.inParallel, false⟩ rfl d.graph.size items {} d []
          (ChainHolds.nil registry _ d.graph) hd)
      obtain ⟨t, e, ht, he, ht', he', hrest⟩ := compileArms_block place arms _ _ h
      obtain rfl := ht' rfl
      rw [if_neg hnone]
      have hdone : done.whenTrue = none := by simpa using hnone
      refine ⟨some (compileItems registry ⟨place.inParallel, false⟩ {} d items).1, e, ?_, he,
        fun hs => absurd hs hnone, he', ?_⟩
      · rw [ht, hdone]
        rfl
      · refine (hinner.append hrest).mono fun g next h => ?_
        obtain ⟨⟨h1, hstrip⟩, -, h2, hstrip'⟩ := h
        exact ⟨fun _ => h1, h2, (hstrip.beside hstrip').fewer fun m hm => by simpa using hm⟩
  | .whenFalse items :: arms, done, d, h => by
    rw [compileArms] at h ⊢
    split at h
    · exact absurd (errors_of_compileArms registry place _ _ arms h) (Draft.note_errors_ne _)
    · next hnone =>
      have hd := errors_of_compileArms registry place _ _ arms h
      have hinner := Block.of_chain (errors_of_compileItems registry _ {} d items hd)
        (compileItems_chain ⟨place.inParallel, false⟩ rfl d.graph.size items {} d []
          (ChainHolds.nil registry _ d.graph) hd)
      obtain ⟨t, e, ht, he, ht', he', hrest⟩ := compileArms_block place arms _ _ h
      obtain rfl := he' rfl
      rw [if_neg hnone]
      have hdone : done.whenFalse = none := by simpa using hnone
      refine ⟨t, some (compileItems registry ⟨place.inParallel, false⟩ {} d items).1, ht, ?_, ht',
        fun hs => absurd hs hnone, ?_⟩
      · rw [he, hdone]
        rfl
      · refine ((hinner.append hrest).mono fun g next h => ?_).exits_congr fun id => by simp [or_comm]
        obtain ⟨⟨h1, hstrip⟩, h2, -, hstrip'⟩ := h
        refine ⟨h2, fun _ => h1, (hstrip.beside hstrip').fewer fun m hm => ?_⟩
        simpa [or_comm] using hm

/-- The branches of a parallel block. -/
theorem compileBranches_block :
    (branches : List (Branch C H)) → (children : List NodeId) → (d : Draft C H) →
      (h : (compileBranches registry children d branches).2.errors = []) →
      ∃ more, (compileBranches registry children d branches).1 = children ++ more ∧
        Block d (compileBranches registry children d branches).2 (branchesNodes branches) []
          fun g _ => BranchesAt registry g more branches ∧ g.Row true more d.graph.size
            (compileBranches registry children d branches).2.graph.size
  | [], children, d, h => by
    rw [compileBranches] at h ⊢
    exact ⟨[], by simp, (Block.nil h).mono fun _ _ _ => ⟨rfl, .nil⟩⟩
  | .single s :: branches, children, d, h => by
    rw [compileBranches] at h ⊢
    split at h
    · exact absurd (errors_of_compileBranches registry _ _ branches h) (Draft.note_errors_ne _)
    · next hs =>
      rw [if_neg hs]
      have hd : (d.push (.step s)).2.errors = [] :=
        errors_of_compileBranches registry _ _ branches h
      obtain ⟨more, hmore, hrest⟩ := compileBranches_block branches _ _ h
      have hone := (Block.push (d := d) (.step s) hd).close
      refine ⟨d.graph.size :: more, ?_, (hone.append hrest).mono fun g next ⟨h1, h2, hrow⟩ => ?_⟩
      · rw [← List.append_cons] at hmore
        exact hmore
      · have hstrip : g.Strip true [d.graph.size] d.graph.size (d.graph.size + 1) none :=
          .leaf h1 rfl fun s' hs' _ => by
            cases hs'
            simpa using hs
        have hpush : (d.graph.push (.step s)).2.size = d.graph.size + 1 := Graph.size_push _
        rw [← hpush] at hstrip
        exact ⟨⟨d.graph.size, more, rfl, h1, h2⟩, hrow.cons hstrip⟩
  | .chain items :: branches, children, d, h => by
    have hinner := compileItems_chain ⟨true, false⟩ rfl d.graph.size items {} d []
      (ChainHolds.nil registry _ d.graph)
    rw [compileBranches_chain registry children d items branches rfl] at h ⊢
    cases he : (compileItems registry ⟨true, false⟩ {} d items).1.entry with
    | none =>
      rw [he] at h
      exact absurd (errors_of_compileBranches registry _ _ branches h) (Draft.note_errors_ne _)
    | some entry =>
      rw [he] at h
      have hd := errors_of_compileBranches registry _ _ branches h
      have hblock := Block.of_chain (errors_of_compileItems registry _ {} d items hd) (hinner hd)
      rw [he] at hblock
      obtain ⟨more, hmore, hrest⟩ := compileBranches_block branches _ _ h
      refine ⟨entry :: more, ?_, (hblock.close.append hrest).mono fun g next h => ?_⟩
      · rw [← List.append_cons] at hmore
        exact hmore
      · obtain ⟨⟨h1, hstrip⟩, h2, hrow⟩ := h
        exact ⟨⟨entry, more, rfl, h1, h2⟩, hrow.cons hstrip⟩

end

/-! ### Programs -/

theorem Outline.errors_of_append {o : Outline C H} {item : Item C H}
    (h : (o.append registry item).draft.errors = []) : o.draft.errors = [] :=
  item.errors_of_compile registry ⟨false, false⟩ o.chain o.draft h

theorem Outline.note_errors_ne (o : Outline C H) (e : ConfigError) :
    (o.note e).draft.errors ≠ [] := Draft.note_errors_ne e

/-- Nothing is added before the start. -/
theorem Outline.started_of_append {o : Outline C H} {item : Item C H}
    (h : (o.call registry (.append item)).draft.errors = []) : o.started = true := by
  rw [Outline.call] at h
  split at h
  · assumption
  · exfalso
    simp only at h
    split at h
    · exact absurd (Outline.errors_of_append registry h) (Outline.note_errors_ne o _)
    · exact absurd h (Outline.note_errors_ne o _)

/-- A call without a mistake adds its items to the chain. -/
theorem Outline.draft_of_call {o : Outline C H} {call : Call C H}
    (h : (o.call registry call).draft.errors = []) :
    o.draft.errors = [] ∧
      ((o.call registry call).chain, (o.call registry call).draft) =
        compileItems registry ⟨false, false⟩ o.chain o.draft call.items := by
  cases call with
  | start s =>
    rw [Outline.call] at h ⊢
    split at h
    · exact absurd h (Outline.note_errors_ne o _)
    · next hs =>
      rw [if_neg hs]
      exact ⟨Outline.errors_of_append registry (o := { o with started := true }) h, rfl⟩
  | append item =>
    have hs := Outline.started_of_append registry h
    rw [Outline.call, if_pos hs] at h ⊢
    exact ⟨Outline.errors_of_append registry h, rfl⟩
  | bound limit =>
    rw [Outline.call] at h ⊢
    split at h
    · exact absurd h (Outline.note_errors_ne o _)
    · next h0 =>
      split at h
      · exact absurd h (Outline.note_errors_ne o _)
      · next h1 =>
        rw [if_neg h0, if_neg h1]
        exact ⟨h, rfl⟩

theorem Outline.errors_of_calls (calls : List (Call C H)) {o : Outline C H}
    (h : (calls.foldl (fun o c => o.call registry c) o).draft.errors = []) :
    o.draft.errors = [] := by
  induction calls generalizing o with
  | nil => exact h
  | cons call calls ih => exact (Outline.draft_of_call registry (ih h)).1

/-- Calls without a mistake add all their items. -/
theorem Outline.holds_of_calls (calls : List (Call C H)) {o : Outline C H}
    (done : List (Item C H)) (hc : ChainHolds registry false 0 done o.chain o.draft.graph)
    (hsize : o.draft.graph.size = itemsNodes done)
    (h : (calls.foldl (fun o c => o.call registry c) o).draft.errors = []) :
    ChainHolds registry false 0 (done ++ calls.flatMap Call.items)
        (calls.foldl (fun o c => o.call registry c) o).chain
        (calls.foldl (fun o c => o.call registry c) o).draft.graph ∧
      (calls.foldl (fun o c => o.call registry c) o).draft.graph.size =
        itemsNodes (done ++ calls.flatMap Call.items) := by
  induction calls generalizing o done with
  | nil => exact ⟨by simpa using hc, by simpa using hsize⟩
  | cons call calls ih =>
    rw [List.foldl_cons] at h ⊢
    rw [List.flatMap_cons, ← List.append_assoc]
    have hclean := Outline.errors_of_calls registry calls h
    obtain ⟨-, heq⟩ := Outline.draft_of_call registry hclean
    have hchain : (o.call registry call).chain = _ := congrArg Prod.fst heq
    have hdraft : (o.call registry call).draft = _ := congrArg Prod.snd heq
    rw [hdraft] at hclean
    obtain ⟨hs, hc', -⟩ := compileItems_chain registry ⟨false, false⟩ rfl 0 call.items
      o.chain o.draft done hc hclean
    rw [← hchain, ← hdraft] at hc'
    rw [← hdraft, hsize, ← itemsNodes_append] at hs
    exact ih _ hc' hs h

/-- Without a mistake the first item is a step. -/
theorem Outline.first_of_calls (calls : List (Call C H)) {o : Outline C H}
    (hnew : o.started = false)
    (h : (calls.foldl (fun o c => o.call registry c) o).draft.errors = []) :
    calls.flatMap Call.items = [] ∨
      ∃ s items, calls.flatMap Call.items = .step s :: items := by
  induction calls generalizing o with
  | nil => exact .inl rfl
  | cons call calls ih =>
    rw [List.foldl_cons] at h
    have hclean := Outline.errors_of_calls registry calls h
    cases call with
    | start s => exact .inr ⟨s, _, rfl⟩
    | append item => simp [Outline.started_of_append registry hclean] at hnew
    | bound limit =>
      refine ih (o := o.call registry (.bound limit)) ?_ h
      rw [Outline.call]
      split
      · exact hnew
      · split <;> exact hnew

theorem Outline.begin_eq (id : String) (version : Except Version.Fault Version) (text : String) :
    (Outline.begin id version text : Outline C H).chain = {} ∧
      (Outline.begin id version text : Outline C H).draft.graph = {} ∧
      (Outline.begin id version text : Outline C H).started = false := by
  unfold Outline.begin
  cases version <;> split <;> exact ⟨rfl, rfl, rfl⟩

/-- What the calls of a program have added lies in the graph, and is one tract. -/
theorem Program.lies_of_compile {p : Program C H} {d : Definition C H}
    (h : p.compile registry = .ok d) :
    (ItemsAt registry d.graph (some d.root) none p.items ∧
      d.graph.Strip false [d.root] 0 d.graph.size none) ∧ d.graph.size = itemsNodes p.items := by
  rw [Program.compile] at h
  obtain ⟨hchain, hgraph, -⟩ :=
    Outline.begin_eq (C := C) (H := H) p.id (Version.parse p.version) p.version
  generalize ho : Outline.begin p.id (Version.parse p.version) p.version = o at h hchain hgraph
  have hnil : ChainHolds registry false 0 [] o.chain o.draft.graph := by
    rw [hgraph, hchain]
    exact ChainHolds.nil registry false {}
  have hcalls := Outline.holds_of_calls registry p.calls (o := o) [] hnil
    (by rw [hgraph]; rfl)
  split at h
  · simp at h
  · next root version herr hentry hversion =>
    obtain ⟨hc, hsize⟩ := hcalls (List.head?_eq_none_iff.1 herr)
    cases h
    rw [List.nil_append] at hc hsize
    refine ⟨?_, hsize⟩
    have hat := hc.opened.close.holds _ none fun id _ _ =>
      (Graph.closed_of_not_mem (by simp) _).symm
    rwa [hentry] at hat
  · simp at h

/-- A program that compiles lies in its graph between the root and the end, and the graph has no
other nodes. -/
theorem Program.layout_of_compile {p : Program C H} {d : Definition C H}
    (h : p.compile registry = .ok d) :
    ItemsAt registry d.graph (some d.root) none p.items ∧ d.graph.size = itemsNodes p.items :=
  ⟨(p.lies_of_compile registry h).1.1, (p.lies_of_compile registry h).2⟩

/-- The graph of a program that compiles is one tract, which flow enters at the root. -/
theorem Program.orderly_of_compile {p : Program C H} {d : Definition C H}
    (h : p.compile registry = .ok d) : d.Orderly :=
  (p.lies_of_compile registry h).1.2 (by simp)

/-- A workflow begins with a step. -/
theorem Program.root_of_compile {p : Program C H} {d : Definition C H}
    (h : p.compile registry = .ok d) :
    ∃ n s, d.graph.get? d.root = some n ∧ n.kind = .step s := by
  obtain ⟨hat, -⟩ := Program.layout_of_compile registry h
  rw [Program.compile] at h
  have hnew := (Outline.begin_eq (C := C) (H := H) p.id (Version.parse p.version) p.version).2.2
  split at h
  · simp at h
  · next herr _ _ =>
    obtain hnone | ⟨s, items, hitems⟩ :=
      Outline.first_of_calls registry p.calls hnew (List.head?_eq_none_iff.1 herr)
    · rw [Program.items, hnone] at hat
      simp [ItemsAt] at hat
    · rw [Program.items, hitems] at hat
      obtain ⟨node, after, heq, hnode, -⟩ := hat
      rw [Option.some.inj heq]
      exact ⟨_, s, hnode, rfl⟩
  · simp at h

end

end DurableWorkflow

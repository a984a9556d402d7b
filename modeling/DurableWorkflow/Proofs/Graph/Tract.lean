import DurableWorkflow.Definition

/-!
# Tracts of a graph

A tract is a range of nodes that flow enters at its heads and leaves only for what follows it. In a
tract flow ascends. The children of a block begin ranges of their own, which lie one after the other
behind the block and before whatever follows it, and no other link leads into them. Tracts are put
together as the chains of a program are: side by side (`Tract.append`), and behind the node of a
block or a choice (`Tract.behind`).
-/

namespace DurableWorkflow

variable {C H : Type}

/-- The children of a block. -/
def NodeKind.children : NodeKind C H → List Nat
  | sequence children | parallel children => children
  | _ => []

/-- The entries of a choice. -/
def NodeKind.entries : NodeKind C H → List Nat
  | conditional _ t e => t.toList ++ e.toList
  | _ => []

/-- All nodes that a node names. -/
def Node.links (n : Node C H) : List Nat :=
  n.next.toList ++ (n.kind.entries ++ n.kind.children)

theorem Node.kind_of_step {n : Node C H} {s : Step C H} (h : n.step? = some s) :
    n.kind = .step s := by
  unfold step? at h
  split at h
  · next hkind => rw [hkind, Option.some.inj h]
  · simp at h

namespace Graph

/-- Links from the range ascend and stay in it. -/
def Inside (g : Graph C H) (lo hi : Nat) : Prop :=
  ∀ (id : Nat) n, lo ≤ id → id < hi → g.get? id = some n → ∀ m ∈ n.links, id < m ∧ m < hi

/-- The nodes begin ranges between `lo` and `hi`, one after the other. -/
def Apart (g : Graph C H) : List Nat → Nat → Nat → Prop
  | [], lo, hi => lo ≤ hi
  | c :: cs, lo, hi => ∃ mid : Nat, lo ≤ c ∧ c < mid ∧ g.Inside c mid ∧ g.Apart cs mid hi

/-- No step in the range may wait for a signal. -/
def Steady (g : Graph C H) (lo hi : Nat) : Prop :=
  ∀ (id : Nat) n s, lo ≤ id → id < hi → g.get? id = some n → n.step? = some s → s.maySuspend = false

/-- The node lies with its children from `id` to `hi`, and what follows it lies behind. -/
structure Spread (g : Graph C H) (id : Nat) (n : Node C H) (hi : Nat) : Prop where
  lt : id < hi
  apart : g.Apart n.kind.children (id + 1) hi
  next : ∀ m : Nat, n.next = some m → hi ≤ m
  steady : ∀ children, n.kind = .parallel children → g.Steady (id + 1) hi

/-- `m` is one of the heads, or a node between `lo` and `id` names it. -/
def Named (g : Graph C H) (heads : List Nat) (lo id m : Nat) : Prop :=
  m ∈ heads ∨ ∃ (x : Nat) (k : Node C H), lo ≤ x ∧ x < id ∧ g.get? x = some k ∧ m ∈ k.links

/-- The nodes from `lo` to `hi`, with `next` to follow. -/
structure Tract (g : Graph C H) (steady : Bool) (heads : List Nat) (lo hi : Nat)
    (next : Option NodeId) : Prop where
  le : lo ≤ hi
  within : ∀ m ∈ heads, lo ≤ m ∧ m < hi
  links : ∀ (id : Nat) n, lo ≤ id → id < hi → g.get? id = some n →
    ∀ m ∈ n.links, id < m ∧ (m < hi ∨ next = some m)
  /-- Nothing before a node leads past it among its children. -/
  spread : ∀ (id : Nat) n, lo ≤ id → id < hi → g.get? id = some n →
    ∃ e, e ≤ hi ∧ g.Spread id n e ∧ ∀ m, g.Named heads lo id m → m ≤ id ∨ e ≤ m
  steady : steady = true → g.Steady lo hi

variable {g : Graph C H} {lo mid hi : Nat} {heads heads' : List Nat} {steady : Bool}
  {next after : Option NodeId}

/-! ### Ranges -/

theorem Inside.mono (h : g.Inside lo hi) (hlo : lo ≤ mid) : g.Inside mid hi :=
  fun id n h1 h2 => h id n (by omega) h2

namespace Apart

variable {cs ds : List Nat} {lo' hi' : Nat}

theorem le (h : g.Apart cs lo hi) : lo ≤ hi := by
  induction cs generalizing lo with
  | nil => exact h
  | cons c cs ih =>
    obtain ⟨mid, hlo, hc, -, hrest⟩ := h
    have := ih hrest
    omega

theorem mem (h : g.Apart cs lo hi) {c : Nat} (hc : c ∈ cs) : lo ≤ c ∧ c < hi := by
  induction cs generalizing lo with
  | nil => simp at hc
  | cons d cs ih =>
    obtain ⟨mid, hlo, hd, -, hrest⟩ := h
    have := hrest.le
    rcases List.mem_cons.1 hc with rfl | hc
    · omega
    · have := ih hrest hc
      omega

theorem mono (h : g.Apart cs lo hi) (hlo : lo' ≤ lo) (hhi : hi ≤ hi') : g.Apart cs lo' hi' := by
  induction cs generalizing lo lo' with
  | nil =>
    have : lo ≤ hi := h
    exact show lo' ≤ hi' by omega
  | cons c cs ih =>
    obtain ⟨mid, hc, hmid, hinside, hrest⟩ := h
    exact ⟨mid, by omega, hmid, hinside, ih hrest (Nat.le_refl _)⟩

theorem append (h : g.Apart cs lo mid) (h' : g.Apart ds mid hi) : g.Apart (cs ++ ds) lo hi := by
  induction cs generalizing lo with
  | nil => exact h'.mono h (Nat.le_refl _)
  | cons c cs ih =>
    obtain ⟨m, hc, hm, hinside, hrest⟩ := h
    exact ⟨m, hc, hm, hinside, ih hrest⟩

theorem narrow (h : g.Apart cs lo hi) (hinside : g.Inside lo mid) (hle : lo ≤ mid)
    (hcs : ∀ c : Nat, c ∈ cs → c < mid) : g.Apart cs lo mid := by
  induction cs generalizing lo with
  | nil => exact hle
  | cons c cs ih =>
    obtain ⟨m, hc, hm, hown, hrest⟩ := h
    have hcmid : c < mid := hcs c (by simp)
    match cs with
    | [] => exact ⟨mid, hc, hcmid, hinside.mono hc, Nat.le_refl _⟩
    | d :: ds =>
      obtain ⟨m', hd, hm', hown', hrest'⟩ := id hrest
      have hdmid : d < mid := hcs d (by simp)
      refine ⟨m, hc, hm, hown, ih hrest (hinside.mono (by omega)) (by omega) fun c hc => hcs c ?_⟩
      exact List.mem_cons_of_mem _ hc

end Apart

/-! ### Putting tracts together -/

namespace Tract

theorem nil (next : Option NodeId) : g.Tract steady [] lo lo next :=
  ⟨Nat.le_refl _, by simp, fun _ _ h1 h2 => by omega, fun _ _ h1 h2 => by omega,
    fun _ _ _ _ h1 h2 => by omega⟩

theorem fewer (h : g.Tract steady heads lo hi next) (hheads : ∀ m ∈ heads', m ∈ heads) :
    g.Tract steady heads' lo hi next := by
  refine ⟨h.le, fun m hm => h.within m (hheads m hm), h.links, fun id n h1 h2 hn => ?_, h.steady⟩
  obtain ⟨e, he, hspread, hnamed⟩ := h.spread id n h1 h2 hn
  exact ⟨e, he, hspread, fun m hm => hnamed m (hm.imp_left (hheads m))⟩

theorem inside (h : g.Tract steady heads lo hi none) : g.Inside lo hi := by
  intro id n h1 h2 hn m hm
  obtain ⟨hlt, hhi | hnone⟩ := h.links id n h1 h2 hn m hm
  · exact ⟨hlt, hhi⟩
  · simp at hnone

/-- Two tracts side by side. The first one leads into the second, or where that leads. -/
theorem append (h : g.Tract steady heads lo mid after) (h' : g.Tract steady heads' mid hi next)
    (hafter : ∀ m : Nat, after = some m → m = mid ∨ next = some m)
    (hnext : ∀ m : Nat, next = some m → hi ≤ m) (hlt : mid < hi ∨ after = none ∨ after = next) :
    g.Tract steady (heads ++ heads') lo hi next := by
  have hle := h.le
  have hle' := h'.le
  have hlink (id : Nat) (n : Node C H) (h1 : lo ≤ id) (h2 : id < mid) (hn : g.get? id = some n)
      (m : Nat) (hm : m ∈ n.links) : m < mid ∨ m = mid ∨ next = some m := by
    obtain ⟨-, hmid | hsome⟩ := h.links id n h1 h2 hn m hm
    · exact .inl hmid
    · exact .inr (hafter m hsome)
  refine ⟨by omega, fun m hm => ?_, fun id n h1 h2 hn m hm => ?_, fun id n h1 h2 hn => ?_,
    fun hs id n s h1 h2 => ?_⟩
  · rcases List.mem_append.1 hm with hm | hm
    · have := h.within m hm
      omega
    · have := h'.within m hm
      omega
  · by_cases hid : id < mid
    · obtain ⟨hlt', hmid | hsome⟩ := h.links id n h1 hid hn m hm
      · exact ⟨hlt', .inl (by omega)⟩
      · refine ⟨hlt', ?_⟩
        obtain rfl | hsame := hafter m hsome
        · obtain hlt | hnone | hsame := hlt
          · exact .inl hlt
          · rw [hnone] at hsome
            simp at hsome
          · exact .inr (hsame ▸ hsome)
        · exact .inr hsame
    · exact h'.links id n (by omega) h2 hn m hm
  · -- What one tract names in the other is behind all its nodes, or is the other's first node.
    by_cases hid : id < mid
    · obtain ⟨e, he, hspread, hnamed⟩ := h.spread id n h1 hid hn
      refine ⟨e, by omega, hspread, fun m hm => ?_⟩
      rcases hm with hm | hm
      · rcases List.mem_append.1 hm with hm | hm
        · exact hnamed m (.inl hm)
        · have := h'.within m hm
          exact .inr (by omega)
      · exact hnamed m (.inr hm)
    · obtain ⟨e, he, hspread, hnamed⟩ := h'.spread id n (by omega) h2 hn
      refine ⟨e, he, hspread, fun m hm => ?_⟩
      rcases hm with hm | ⟨x, k, hx, hxid, hk, hm⟩
      · rcases List.mem_append.1 hm with hm | hm
        · have := h.within m hm
          exact .inl (by omega)
        · exact hnamed m (.inl hm)
      · by_cases hxmid : x < mid
        · obtain hmid | hmid | hsome := hlink x k hx hxmid hk m hm
          · exact .inl (by omega)
          · exact .inl (by omega)
          · have := hnext m hsome
            exact .inr (by omega)
        · exact hnamed m (.inr ⟨x, k, by omega, hxid, hk, hm⟩)
  · by_cases hid : id < mid
    · exact h.steady hs id n s h1 hid
    · exact h'.steady hs id n s (by omega) h2

/-- The node of a block or of a choice, with the tract behind it that it leads into. -/
theorem behind {n : Node C H} {inner : Bool} (hn : g.get? lo = some n)
    (h : g.Tract inner heads (lo + 1) hi after) (hafter : ∀ m : Nat, after = some m → next = some m)
    (hown : ∀ m : Nat, n.next = some m → next = some m)
    (hnext : ∀ m : Nat, next = some m → hi ≤ m)
    (hheads : ∀ m ∈ n.kind.entries ++ n.kind.children, m ∈ heads)
    (hapart : g.Apart n.kind.children (lo + 1) hi)
    (hparallel : ∀ children, n.kind = .parallel children → inner = true)
    (hsteady : steady = true → inner = true ∧ ∀ s, n.step? = some s → s.maySuspend = false) :
    g.Tract steady [lo] lo hi next := by
  have hle := h.le
  have hlinks (m : Nat) (hm : m ∈ n.links) : next = some m ∨ m ∈ heads := by
    rcases List.mem_append.1 hm with hm | hm
    · exact .inl (hown m (by simpa using hm))
    · exact .inr (hheads m hm)
  refine ⟨by omega, fun m hm => ?_, fun id k h1 h2 hk m hm => ?_, fun id k h1 h2 hk => ?_,
    fun hs id k s h1 h2 hk hs' => ?_⟩
  · obtain rfl := List.mem_singleton.1 hm
    omega
  · by_cases hid : id = lo
    · subst hid
      rw [hn] at hk
      cases hk
      obtain hsome | hm := hlinks m hm
      · have := hnext m hsome
        exact ⟨by omega, .inr hsome⟩
      · have := h.within m hm
        exact ⟨by omega, .inl this.2⟩
    · obtain ⟨hlt, hm⟩ := h.links id k (by omega) h2 hk m hm
      exact ⟨hlt, hm.imp_right (hafter m)⟩
  · by_cases hid : id = lo
    · subst hid
      rw [hn] at hk
      cases hk
      refine ⟨hi, Nat.le_refl _, ⟨by omega, hapart, fun m hm => hnext m (hown m hm),
        fun children hc => h.steady (hparallel children hc)⟩, fun m hm => ?_⟩
      rcases hm with hm | ⟨x, -, hx, hxid, -⟩
      · obtain rfl := List.mem_singleton.1 hm
        exact .inl (Nat.le_refl _)
      · omega
    · obtain ⟨e, he, hspread, hnamed⟩ := h.spread id k (by omega) h2 hk
      refine ⟨e, he, hspread, fun m hm => ?_⟩
      rcases hm with hm | ⟨x, k', hx, hxid, hk', hm⟩
      · obtain rfl := List.mem_singleton.1 hm
        exact .inl (by omega)
      · by_cases hxlo : x = lo
        · subst hxlo
          rw [hn] at hk'
          cases hk'
          obtain hsome | hm := hlinks m hm
          · have := hnext m hsome
            exact .inr (by omega)
          · exact hnamed m (.inl hm)
        · exact hnamed m (.inr ⟨x, k', by omega, hxid, hk', hm⟩)
  · obtain ⟨hinner, hown'⟩ := hsteady hs
    by_cases hid : id = lo
    · subst hid
      rw [hn] at hk
      cases hk
      exact hown' s hs'
    · exact h.steady hinner id k s (by omega) h2 hk hs'

end Tract

/-! ### Chains and rows -/

/-- A tract, if what follows lies behind it. -/
def Strip (g : Graph C H) (steady : Bool) (heads : List Nat) (lo hi : Nat) (next : Option NodeId) :
    Prop :=
  (∀ m : Nat, next = some m → hi ≤ m) → g.Tract steady heads lo hi next

/-- Tracts side by side that lead nowhere, with the children for heads. -/
structure Row (g : Graph C H) (steady : Bool) (children : List Nat) (lo hi : Nat) : Prop where
  tract : g.Tract steady children lo hi none
  apart : g.Apart children lo hi

namespace Strip

theorem fewer (h : g.Strip steady heads lo hi next) (hheads : ∀ m ∈ heads', m ∈ heads) :
    g.Strip steady heads' lo hi next := fun hnext => (h hnext).fewer hheads

/-- The first strip is linked to the head of the second. -/
theorem link (h : g.Strip steady heads lo mid (some mid)) (h' : g.Strip steady [mid] mid hi next) :
    g.Strip steady (heads ++ [mid]) lo hi next := by
  intro hnext
  have htract := h' hnext
  have hmid := htract.within mid (by simp)
  refine (h fun m hm => ?_).append htract (fun m hm => .inl ?_) hnext (.inl hmid.2)
  · cases hm
    exact Nat.le_refl _
  · cases hm
    rfl

/-- Both strips lead to the same. -/
theorem beside (h : g.Strip steady heads lo mid next) (h' : g.Strip steady heads' mid hi next) :
    g.Strip steady (heads ++ heads') lo hi next := by
  intro hnext
  have htract := h' hnext
  have hle := htract.le
  exact (h fun m hm => Nat.le_trans hle (hnext m hm)).append htract (fun m hm => .inr hm) hnext
    (.inr (.inr rfl))

theorem leaf {kind : NodeKind C H} (hn : g.get? lo = some ⟨kind, next⟩)
    (hleaf : kind.entries ++ kind.children = [])
    (hsteady : ∀ s, kind = .step s → steady = true → s.maySuspend = false) :
    g.Strip steady [lo] lo (lo + 1) next := by
  intro hnext
  have hchildren : kind.children = [] := (List.append_eq_nil_iff.1 hleaf).2
  have hnil : g.Tract true [] (lo + 1) (lo + 1) none := .nil none
  refine hnil.behind hn (by simp) (fun _ hm => hm) hnext ?_ ?_ (fun _ _ => rfl)
    fun hs => ⟨rfl, fun s hstep => hsteady s (Node.kind_of_step hstep) hs⟩
  · simp [hleaf]
  · simp only [hchildren]
    exact Nat.le_refl _

theorem choice {holds : Predicate C} {t e own : Option NodeId}
    (h : g.Strip steady (t.toList ++ e.toList) (lo + 1) hi next)
    (hn : g.get? lo = some ⟨.conditional holds t e, own⟩) (hown : own = none ∨ own = next) :
    g.Strip steady [lo] lo hi next := by
  intro hnext
  have htract := h hnext
  refine htract.behind hn (fun _ hm => hm) (fun m hm => ?_) hnext ?_ htract.le (by simp)
    fun hs => ⟨hs, by simp [Node.step?]⟩
  · obtain rfl | rfl := hown
    · simp at hm
    · exact hm
  · simp [NodeKind.entries, NodeKind.children]

end Strip

namespace Row

variable {children : List Nat} {c : Nat}

theorem nil : g.Row steady [] lo lo := ⟨.nil none, Nat.le_refl _⟩

theorem cons (h : g.Row steady children mid hi) (hfirst : g.Strip steady [c] lo mid none) :
    g.Row steady (c :: children) lo hi := by
  have htract := hfirst (by simp)
  have hc := htract.within c (by simp)
  exact ⟨htract.append h.tract (by simp) (by simp) (.inr (.inl rfl)),
    mid, hc.1, hc.2, htract.inside.mono hc.1, h.apart⟩

theorem sequence (h : g.Row steady children (lo + 1) hi)
    (hn : g.get? lo = some ⟨.sequence children, next⟩) : g.Strip steady [lo] lo hi next := by
  intro hnext
  refine h.tract.behind hn (by simp) (fun _ hm => hm) hnext ?_ h.apart (by simp)
    fun hs => ⟨hs, by simp [Node.step?]⟩
  simp [NodeKind.entries, NodeKind.children]

theorem parallel (h : g.Row true children (lo + 1) hi)
    (hn : g.get? lo = some ⟨.parallel children, next⟩) : g.Strip steady [lo] lo hi next := by
  intro hnext
  refine h.tract.behind hn (by simp) (fun _ hm => hm) hnext ?_ h.apart (fun _ _ => rfl)
    fun _ => ⟨rfl, by simp [Node.step?]⟩
  simp [NodeKind.entries, NodeKind.children]

end Row

end Graph

/-- The graph of the definition is one tract, which flow enters at the root. -/
def Definition.Orderly (d : Definition C H) : Prop :=
  d.graph.Tract false [d.root] 0 d.graph.size none

end DurableWorkflow

/-!
### Graphs of one shape

Graphs whose nodes differ at most in the work of their steps. Whatever is said of the shape of a
graph, and so of a built definition, is true of the other one, too (`Orderly.like`).
-/

namespace DurableWorkflow

variable {C H H' : Type}

/-- Nodes that differ at most in the work of their steps. -/
structure Node.Like (n : Node C H) (n' : Node C H') : Prop where
  next : n'.next = n.next
  entries : n'.kind.entries = n.kind.entries
  children : n'.kind.children = n.kind.children
  parallel : ∀ children, n'.kind = .parallel children → n.kind = .parallel children
  step : ∀ s', n'.step? = some s' → ∃ s, n.step? = some s ∧ s'.maySuspend = s.maySuspend

/-- Every node of the second graph is like that of the first. -/
structure Graph.Like (g : Graph C H) (g' : Graph C H') : Prop where
  size : g'.size = g.size
  node : ∀ (id : Nat) n', g'.get? id = some n' → ∃ n, g.get? id = some n ∧ n.Like n'

theorem Node.Like.links {n : Node C H} {n' : Node C H'} (h : n.Like n') : n'.links = n.links := by
  rw [Node.links, h.next, h.entries, h.children, Node.links]

namespace Graph

variable {g : Graph C H} {g' : Graph C H'} {lo hi : Nat} {cs heads : List Nat} {n : Node C H}
  {n' : Node C H'} {steady : Bool} {next : Option NodeId}

theorem Inside.like (hlike : g.Like g') (h : g.Inside lo hi) : g'.Inside lo hi := by
  intro id n' h1 h2 hn' m hm
  obtain ⟨n, hn, hnode⟩ := hlike.node id n' hn'
  exact h id n h1 h2 hn m (hnode.links ▸ hm)

theorem Apart.like (hlike : g.Like g') (h : g.Apart cs lo hi) : g'.Apart cs lo hi := by
  induction cs generalizing lo with
  | nil => exact h
  | cons c cs ih =>
    obtain ⟨mid, hlo, hc, hinside, hrest⟩ := h
    exact ⟨mid, hlo, hc, hinside.like hlike, ih hrest⟩

theorem Steady.like (hlike : g.Like g') (h : g.Steady lo hi) : g'.Steady lo hi := by
  intro id n' s' h1 h2 hn' hs'
  obtain ⟨n, hn, hnode⟩ := hlike.node id n' hn'
  obtain ⟨s, hs, hsame⟩ := hnode.step s' hs'
  rw [hsame]
  exact h id n s h1 h2 hn hs

theorem Spread.like (hlike : g.Like g') (hn : n.Like n') (h : g.Spread lo n hi) :
    g'.Spread lo n' hi where
  lt := h.lt
  apart := hn.children ▸ h.apart.like hlike
  next m hm := h.next m (hn.next ▸ hm)
  steady children hkind := (h.steady children (hn.parallel children hkind)).like hlike

theorem Named.of_like (hlike : g.Like g') {id m : Nat} (h : g'.Named heads lo id m) :
    g.Named heads lo id m := by
  obtain hm | ⟨x, k', h1, h2, hk', hm⟩ := h
  · exact .inl hm
  · obtain ⟨k, hk, hnode⟩ := hlike.node x k' hk'
    exact .inr ⟨x, k, h1, h2, hk, hnode.links ▸ hm⟩

theorem Tract.like (hlike : g.Like g') (h : g.Tract steady heads lo hi next) :
    g'.Tract steady heads lo hi next where
  le := h.le
  within := h.within
  links id n' h1 h2 hn' m hm := by
    obtain ⟨n, hn, hnode⟩ := hlike.node id n' hn'
    exact h.links id n h1 h2 hn m (hnode.links ▸ hm)
  spread id n' h1 h2 hn' := by
    obtain ⟨n, hn, hnode⟩ := hlike.node id n' hn'
    obtain ⟨e, he, hspread, hnamed⟩ := h.spread id n h1 h2 hn
    exact ⟨e, he, hspread.like hlike hnode, fun m hm => hnamed m (hm.of_like hlike)⟩
  steady hs := (h.steady hs).like hlike

end Graph

theorem Definition.Orderly.like {d : Definition C H} {d' : Definition C H'}
    (hlike : d.graph.Like d'.graph) (hroot : d'.root = d.root) (h : d.Orderly) : d'.Orderly := by
  have htract := Graph.Tract.like hlike h
  rw [← hlike.size, ← hroot] at htract
  exact htract

end DurableWorkflow

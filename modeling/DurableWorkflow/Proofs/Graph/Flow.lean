import DurableWorkflow.Proofs.Graph.Tract
import Mathlib.Logic.Relation

/-!
# Flow through a graph

A walk keeps a stack of nodes. In a tract the nodes of a stack begin ranges that lie one after the
other, and passing the first of them leaves such a stack, further on (`Tract.onward`); so no walk
comes to a node twice.

The branches of a parallel block have stacks of their own. A node that can be reached from a child
of such a block lies between the block and what follows it, and the main walk goes past it
(`Exposed`).
-/

namespace DurableWorkflow

variable {C H : Type}

/-- Where a walk goes on from a node that it has passed. The branches of a parallel node are walks
of their own. -/
def Node.Onward (n : Node C H) (nodes : List Nat) : Prop :=
  match n.kind with
  | .sequence children => nodes = children ++ n.next.toList
  | .conditional _ t e => nodes = (t.or n.next).toList ∨ nodes = (e.or n.next).toList
  | .step _ | .parallel _ | .delay _ => nodes = n.next.toList

theorem Node.Onward.links {n : Node C H} {nodes : List Nat} (h : n.Onward nodes) {m : Nat}
    (hm : m ∈ nodes) : m ∈ n.links := by
  have hor (a : Option Nat) (ha : m ∈ (a.or n.next).toList) :
      m ∈ n.next.toList ∨ m ∈ a.toList := by
    cases a with
    | none => exact .inl ha
    | some => exact .inr ha
  unfold Onward at h
  simp only [Node.links, List.mem_append]
  split at h
  · next children hkind =>
    subst h
    rw [hkind]
    exact (List.mem_append.1 hm).symm.imp_right .inr
  · next t e hkind =>
    rw [hkind]
    simp only [NodeKind.entries, NodeKind.children, List.mem_append, List.not_mem_nil, or_false]
    rcases h with rfl | rfl
    · exact (hor t hm).imp_right .inl
    · exact (hor e hm).imp_right .inr
  all_goals
    subst h
    exact .inl hm

namespace Graph

/-- The node `a` names the node `b`. -/
def Names (g : Graph C H) (a b : Nat) : Prop := ∃ n, g.get? a = some n ∧ b ∈ n.links

/-- The node lies in a branch of a parallel block, at whatever depth. -/
def InParallel (g : Graph C H) (x : Nat) : Prop :=
  ∃ (p : Nat) (n : Node C H) (children : List Nat) (c : Nat), g.get? p = some n ∧
    n.kind = .parallel children ∧ c ∈ children ∧ Relation.ReflTransGen g.Names c x

/-- Walks that do not enter parallel blocks may come to the node: it does not lie among the children
of such a block, and these are out of their reach. -/
def Exposed (g : Graph C H) (heads : List Nat) (x : Nat) : Prop :=
  ∀ (p : Nat) (n : Node C H) (children : List Nat), g.get? p = some n → n.kind = .parallel children →
    ∃ e, g.Spread p n e ∧ (∀ m, g.Named heads 0 p m → m ≤ p ∨ e ≤ m) ∧ (x ≤ p ∨ e ≤ x)

variable {g : Graph C H} {lo mid hi first : Nat} {heads l nodes : List Nat} {steady : Bool}
  {next : Option NodeId} {n : Node C H} {x y : Nat}

theorem lt_size (hn : g.get? x = some n) : x < g.size :=
  (Array.getElem?_eq_some_iff.1 hn).1

theorem exists_of_lt (h : x < g.size) : ∃ n, g.get? x = some n :=
  ⟨_, Array.getElem?_eq_getElem h⟩

/-! ### Parallel blocks -/

theorem Inside.reaches (h : g.Inside lo hi) (hlo : lo ≤ x) (hhi : x < hi)
    (hy : Relation.ReflTransGen g.Names x y) : x ≤ y ∧ y < hi := by
  induction hy with
  | refl => exact ⟨Nat.le_refl _, hhi⟩
  | tail _ hnames ih =>
    obtain ⟨n, hn, hm⟩ := hnames
    have := h _ n (by omega) ih.2 hn _ hm
    omega

theorem Apart.reaches {cs : List Nat} (h : g.Apart cs lo hi) {c : Nat} (hc : c ∈ cs)
    (hx : Relation.ReflTransGen g.Names c x) : lo ≤ x ∧ x < hi := by
  induction cs generalizing lo with
  | nil => simp at hc
  | cons d cs ih =>
    obtain ⟨mid, hlo, hd, hinside, hrest⟩ := h
    have := hrest.le
    rcases List.mem_cons.1 hc with rfl | hc
    · have := hinside.reaches (Nat.le_refl _) hd hx
      omega
    · have := ih hrest hc
      omega

theorem Apart.single {cs : List Nat} (h : g.Apart cs lo hi) {c : Nat} (hc : c ∈ cs) :
    g.Apart [c] lo hi := by
  induction cs generalizing lo with
  | nil => simp at hc
  | cons d cs ih =>
    obtain ⟨mid, hlo, hd, hinside, hrest⟩ := h
    rcases List.mem_cons.1 hc with rfl | hc
    · exact ⟨mid, hlo, hd, hinside, hrest.le⟩
    · exact (ih hrest hc).mono (by omega) (Nat.le_refl _)

/-- What lies in a branch lies among the children of a block. -/
theorem Spread.reaches {p e : Nat} {children : List Nat} (h : g.Spread p n e)
    (hkind : n.kind = .parallel children) {c : Nat} (hc : c ∈ children)
    (hx : Relation.ReflTransGen g.Names c x) : p < x ∧ x < e := by
  refine h.apart.reaches (c := c) ?_ hx
  rw [hkind]
  exact hc

/-- No step in a branch of a parallel block may wait for a signal. -/
theorem Tract.steady_inParallel (h : g.Tract steady heads 0 g.size next) (hx : g.InParallel x)
    (hn : g.get? x = some n) {s : Step C H} (hs : n.step? = some s) : s.maySuspend = false := by
  obtain ⟨p, k, children, c, hk, hkind, hc, hreaches⟩ := hx
  obtain ⟨e, -, hspread, -⟩ := h.spread p k (Nat.zero_le _) (lt_size hk) hk
  have hin := hspread.reaches hkind hc hreaches
  exact hspread.steady children hkind x n s hin.1 hin.2 hn hs

theorem Tract.exposed (h : g.Tract steady heads 0 g.size next) (hx : x ∈ heads) :
    g.Exposed heads x := by
  intro p n children hn _
  obtain ⟨e, -, hspread, hnamed⟩ := h.spread p n (Nat.zero_le _) (lt_size hn) hn
  exact ⟨e, hspread, hnamed, hnamed x (.inl hx)⟩

namespace Exposed

theorem onward (h : g.Exposed heads x) (htract : g.Tract steady heads 0 g.size next)
    (hn : g.get? x = some n) (hnodes : n.Onward nodes) {m : Nat} (hm : m ∈ nodes) :
    g.Exposed heads m := by
  intro p k children hk hkind
  obtain ⟨e, hspread, hnamed, hside⟩ := h p k children hk hkind
  refine ⟨e, hspread, hnamed, ?_⟩
  have hlink := hnodes.links hm
  have hlt := (htract.links x n (Nat.zero_le _) (lt_size hn) hn m hlink).1
  rcases Nat.lt_trichotomy x p with hxp | rfl | hpx
  · exact hnamed m (.inr ⟨x, n, Nat.zero_le _, hxp, hn, hlink⟩)
  · -- The children of the block are not on the way of the walk that passes it.
    rw [hk] at hn
    cases hn
    simp only [Node.Onward, hkind] at hnodes
    subst hnodes
    exact .inr (hspread.next m (by simpa using hm))
  · omega

theorem not_inParallel (h : g.Exposed heads x) : ¬g.InParallel x := by
  rintro ⟨p, n, children, c, hn, hkind, hc, hx⟩
  obtain ⟨e, hspread, -, hside⟩ := h p n children hn hkind
  have := hspread.reaches hkind hc hx
  omega

end Exposed

/-! ### Stacks -/

/-- In front of a stack there may be one more node, whose range leads into it. -/
theorem Apart.cons_toList (h : g.Apart l mid hi) (hinside : g.Inside x mid) (hle : first ≤ mid)
    (hx : x ≤ first) (ha : ∀ m : Nat, next = some m → first ≤ m ∧ m < mid) :
    g.Apart (next.toList ++ l) first hi := by
  cases next with
  | none => exact h.mono hle (Nat.le_refl _)
  | some m =>
    obtain ⟨hfirst, hmid⟩ := ha m rfl
    exact ⟨mid, hfirst, hmid, hinside.mono (by omega), h⟩

/-- Passing the first node of a stack leaves a stack behind it, and behind its branches if it has
any. -/
theorem Tract.onward (h : g.Tract steady heads 0 g.size next) (hstack : g.Apart (x :: l) first hi)
    (hn : g.get? x = some n) : ∃ e, x < e ∧ e ≤ hi ∧
      (∀ children, n.kind = .parallel children → g.Apart children (x + 1) e) ∧
      ∀ nodes, n.Onward nodes → g.Apart (nodes ++ l) e hi := by
  obtain ⟨mid, -, hxmid, hinside, hrest⟩ := hstack
  obtain ⟨e, -, hspread, -⟩ := h.spread x n (Nat.zero_le _) (lt_size hn) hn
  have hxe := hspread.lt
  have hmid := hrest.le
  have hlinks (m : Nat) (hm : m ∈ n.links) := hinside x n (Nat.le_refl _) hxmid hn m hm
  -- The range of the node on the stack and the range of its children need not end at the same place.
  have hchildren : g.Apart n.kind.children (x + 1) (min mid e) := by
    by_cases hle : e ≤ mid
    · rw [Nat.min_eq_right hle]
      exact hspread.apart
    · rw [Nat.min_eq_left (by omega)]
      refine hspread.apart.narrow (hinside.mono (by omega)) hxmid fun c hc => (hlinks c ?_).2
      simp [Node.links, hc]
  have hnext (first : Nat) (hfirst : first ≤ min mid e) (hx : x ≤ first) :
      g.Apart (n.next.toList ++ l) first hi := by
    refine hrest.cons_toList hinside (by omega) hx fun m hm => ?_
    have := hspread.next m hm
    have := hlinks m (by simp [Node.links, hm])
    omega
  have harm (a : Option Nat) (ha : a.toList ⊆ n.kind.entries) :
      g.Apart ((a.or n.next).toList ++ l) (x + 1) hi := by
    refine hrest.cons_toList hinside hxmid (by omega) fun m hm => hlinks m ?_
    cases a with
    | none => simp_all [Node.links]
    | some k =>
      cases hm
      simp [Node.links, ha (show m ∈ (some m).toList by simp)]
  unfold Node.Onward
  cases hkind : n.kind with
  | sequence children =>
    rw [hkind] at hchildren
    refine ⟨x + 1, by omega, by omega, by simp, fun nodes hnodes => ?_⟩
    rw [show nodes = children ++ n.next.toList from hnodes, List.append_assoc]
    exact hchildren.append (hnext _ (Nat.le_refl _) (by omega))
  | conditional holds t f =>
    rw [hkind] at harm
    refine ⟨x + 1, by omega, by omega, by simp, fun nodes hnodes => ?_⟩
    rcases hnodes with rfl | rfl
    · exact harm t (by simp [NodeKind.entries])
    · exact harm f (by simp [NodeKind.entries])
  | parallel children =>
    rw [hkind] at hchildren
    refine ⟨min mid e, by omega, by omega, fun cs hcs => ?_, fun nodes hnodes => ?_⟩
    · cases hcs
      exact hchildren
    · rw [show nodes = n.next.toList from hnodes]
      exact hnext _ (Nat.le_refl _) (by omega)
  | step | delay =>
    refine ⟨x + 1, by omega, by omega, by simp, fun nodes hnodes => ?_⟩
    rw [show nodes = n.next.toList from hnodes]
    exact hnext _ (by omega) (by omega)

end Graph

end DurableWorkflow

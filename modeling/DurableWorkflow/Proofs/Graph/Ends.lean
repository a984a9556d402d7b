import DurableWorkflow.Proofs.Graph.Flow
import Mathlib.Data.Finset.Card
import Mathlib.Data.Finset.Range
import Mathlib.Data.List.Sort

/-!
# Where chains end

The nodes of a chain hand flow on to one another. The children of a sequence and the branches of a
parallel block are chains of their own, so to a chain each block is one node. Which way flow goes is
up to the conditions (`EndsAt`); where it may end, some conditions let it end (`mayEnd_iff`), and in
a range that it does not leave it ends somewhere (`Inside.exists_end`).

The search for the ends of a chain finds all of them and nothing else, in ascending order
(`mem_terminals`, `terminals_ascending`).
-/

namespace DurableWorkflow

variable {C H : Type}

/-! ### Nodes -/

namespace Node

/-- Where flow goes in its chain once the node is done, if its condition has come to `verdict`. -/
def successor (n : Node C H) (verdict : Bool) : Option NodeId :=
  match n.kind with
  | .conditional _ t e => (if verdict then t else e).or n.next
  | .step _ | .sequence _ | .parallel _ | .delay _ => n.next

variable {n : Node C H} {m : NodeId}

theorem isOpenExit_iff : n.isOpenExit = true ↔ ∃ verdict, n.successor verdict = none := by
  unfold isOpenExit successor
  cases n.kind with
  | conditional holds t e => simp [Bool.exists_bool, or_comm, and_comm]
  | step | sequence | parallel | delay => simp

theorem mem_targets : m ∈ n.targets ↔ ∃ verdict, n.successor verdict = some m := by
  unfold targets successor
  cases n.kind with
  | conditional holds t e => simp [Bool.exists_bool, or_comm]
  | step | sequence | parallel | delay => simp

theorem targets_length (n : Node C H) : n.targets.length ≤ 2 := by
  have hone (a : Option NodeId) : a.toList.length ≤ 1 := by
    cases a <;> simp
  unfold targets
  split
  · next t e _ =>
    rw [List.length_append]
    have := hone (t.or n.next)
    have := hone (e.or n.next)
    omega
  · have := hone n.next
    omega

theorem successor_links {verdict : Bool} (h : n.successor verdict = some m) : m ∈ n.links := by
  unfold successor at h
  unfold links
  cases hkind : n.kind with
  | conditional holds t e =>
    simp only [hkind, Option.or_eq_some_iff] at h
    rcases h with h | ⟨-, h⟩
    · cases verdict <;> simp_all [NodeKind.entries]
    · simp [h]
  | step | sequence | parallel | delay =>
    simp only [hkind] at h
    simp [h]

end Node

namespace Graph

/-! ### Flow in a chain -/

/-- Flow may go from the one node to the other. -/
def Flows (g : Graph C H) (a b : Nat) : Prop :=
  ∃ n, g.get? a = some n ∧ ∃ verdict, n.successor verdict = some b

/-- Flow may have nowhere to go from the node. -/
def Stops (g : Graph C H) (x : Nat) : Prop :=
  ∃ n, g.get? x = some n ∧ ∃ verdict, n.successor verdict = none

/-- The chain that begins at `a` may end at `x`. -/
def MayEnd (g : Graph C H) (a x : Nat) : Prop := Relation.ReflTransGen g.Flows a x ∧ g.Stops x

/-- Where the conditions come to `verdict`, an execution of the chain that begins at the first node
ends at the second, unless it stops before. -/
inductive EndsAt (g : Graph C H) (verdict : NodeId → Bool) : NodeId → NodeId → Prop
  | last {node : NodeId} {n : Node C H} (hn : g.get? node = some n)
    (h : n.successor (verdict node) = none) : EndsAt g verdict node node
  | next {node m x : NodeId} {n : Node C H} (hn : g.get? node = some n)
    (h : n.successor (verdict node) = some m) (hrest : EndsAt g verdict m x) :
    EndsAt g verdict node x

variable {g g' : Graph C H} {a b x lo mid hi : Nat} {verdict verdict' : NodeId → Bool}

theorem EndsAt.mayEnd (h : g.EndsAt verdict a x) : g.MayEnd a x := by
  induction h with
  | last hn h => exact ⟨.refl, _, hn, _, h⟩
  | next hn h _ ih => exact ⟨.head ⟨_, hn, _, h⟩ ih.1, ih.2⟩

theorem Inside.flows (h : g.Inside lo hi) (hlo : lo ≤ a) (hhi : a < hi) (hflow : g.Flows a b) :
    a < b ∧ b < hi := by
  obtain ⟨n, hn, verdict, hb⟩ := hflow
  exact h a n hlo hhi hn b (Node.successor_links hb)

theorem Inside.flow (h : g.Inside lo hi) (hlo : lo ≤ a) (hhi : a < hi)
    (hflow : Relation.ReflTransGen g.Flows a b) : a ≤ b ∧ b < hi := by
  induction hflow with
  | refl => exact ⟨Nat.le_refl a, hhi⟩
  | tail _ hlast ih =>
    have := h.flows (by omega) ih.2 hlast
    omega

/-- What conditions come to at nodes that lie before the chain does not matter. -/
theorem EndsAt.congr (hinside : g.Inside lo hi) (hlo : lo ≤ a) (hhi : a < hi)
    (h : g.EndsAt verdict a x) (hsame : ∀ m : Nat, a ≤ m → verdict' m = verdict m) :
    g.EndsAt verdict' a x := by
  induction h with
  | @last node n hn h => exact .last hn (hsame node (Nat.le_refl node) ▸ h)
  | @next node m x n hn h _ ih =>
    have hm := hinside.flows hlo hhi ⟨n, hn, _, h⟩
    refine .next hn (hsame node (Nat.le_refl node) ▸ h) (ih (by omega) hm.2 fun k hk => ?_)
    exact hsame k (by omega)

/-- Where a chain may end, it does end for some values of the conditions: no node comes twice. -/
theorem mayEnd_iff (hinside : g.Inside lo hi) (hlo : lo ≤ a) (hhi : a < hi) :
    g.MayEnd a x ↔ ∃ verdict, g.EndsAt verdict a x := by
  constructor
  · rintro ⟨hflow, n, hn, last, hlast⟩
    induction hflow using Relation.ReflTransGen.head_induction_on with
    | refl => exact ⟨fun _ => last, .last hn hlast⟩
    | @head a b hfirst _ ih =>
      have hb := hinside.flows hlo hhi hfirst
      obtain ⟨verdict, hrest⟩ := ih (by omega) hb.2
      obtain ⟨k, hk, first, hnext⟩ := hfirst
      refine ⟨fun m => if m = a then first else verdict m, .next hk (m := b) (by simp [hnext]) ?_⟩
      exact hrest.congr hinside (by omega) hb.2 fun m hm =>
        if_neg (Nat.ne_of_gt (Nat.lt_of_lt_of_le hb.1 hm))
  · rintro ⟨verdict, h⟩
    exact h.mayEnd

/-- Flow that does not leave a range ascends in it until it ends. -/
theorem Inside.exists_end (hinside : g.Inside lo hi) (hsize : hi ≤ g.size) (verdict : NodeId → Bool)
    (hlo : lo ≤ a) (hhi : a < hi) : ∃ x, g.EndsAt verdict a x := by
  induction hleft : hi - a using Nat.strongRecOn generalizing a with
  | ind k ih =>
    obtain ⟨n, hn⟩ : ∃ n, g.get? a = some n := exists_of_lt (by omega)
    cases hnext : n.successor (verdict a) with
    | none => exact ⟨a, .last hn hnext⟩
    | some m =>
      have hm := hinside.flows hlo hhi ⟨n, hn, _, hnext⟩
      obtain ⟨x, hx⟩ := ih (hi - m) (by omega) (by omega) hm.2 rfl
      exact ⟨x, .next hn hnext hx⟩

/-- Only the range that flow does not leave matters. -/
theorem MayEnd.congr (h : g.MayEnd a x) (hinside : g.Inside lo hi) (hlo : lo ≤ a) (hhi : a < hi)
    (hsame : ∀ id, lo ≤ id → id < hi → g'.get? id = g.get? id) : g'.MayEnd a x := by
  obtain ⟨hflow, n, hn, hstop⟩ := h
  have hx := hinside.flow hlo hhi hflow
  refine ⟨?_, n, (hsame x (by omega) hx.2).trans hn, hstop⟩
  clear hn hstop hx
  induction hflow with
  | refl => exact .refl
  | tail hflow hlast ih =>
    have hb := hinside.flow hlo hhi hflow
    obtain ⟨k, hk, hnext⟩ := hlast
    exact ih.tail ⟨k, (hsame _ (by omega) hb.2).trans hk, hnext⟩

/-! ### The search -/

/-- What is known of the search from `entry` on while these nodes are queued and those were seen. -/
structure Searched (g : Graph C H) (entry : Nat) (queue seen exits : List Nat) : Prop where
  reached : ∀ x ∈ queue ++ seen, Relation.ReflTransGen g.Flows entry x
  begun : entry ∈ queue ++ seen
  followed : ∀ x ∈ seen, ∀ y, g.Flows x y → y ∈ queue ++ seen
  found : ∀ x, x ∈ exits ↔ x ∈ seen ∧ g.Stops x
  sorted : exits.Pairwise (· ≤ ·)
  nodup : exits.Nodup

/-- How many nodes have not been seen. -/
def unseen (g : Graph C H) (seen : List Nat) : Nat := (Finset.range g.size \ seen.toFinset).card

theorem unseen_cons_le (g : Graph C H) (id : Nat) (seen : List Nat) :
    g.unseen (id :: seen) ≤ g.unseen seen := by
  refine Finset.card_le_card (Finset.sdiff_subset_sdiff (Finset.Subset.refl _) ?_)
  rw [List.toFinset_cons]
  exact Finset.subset_insert _ _

theorem unseen_cons_lt {id : Nat} {seen : List Nat} (hid : id < g.size) (hnew : id ∉ seen) :
    g.unseen (id :: seen) < g.unseen seen := by
  have hmem : id ∈ Finset.range g.size \ seen.toFinset := by simp [hid, hnew]
  unfold unseen
  rw [List.toFinset_cons, Finset.sdiff_insert]
  exact Finset.card_erase_lt_of_mem hmem

theorem insertId_eq (id : Nat) (l : List Nat) : insertId id l = l.orderedInsert (· ≤ ·) id := by
  induction l with
  | nil => rfl
  | cons n ns ih => simp only [insertId, List.orderedInsert_cons, ih]

namespace Searched

variable {entry id : Nat} {queue seen exits : List Nat} {n : Node C H}

theorem begin (g : Graph C H) (entry : Nat) : g.Searched entry [entry] [] [] := by
  refine ⟨fun x hx => ?_, by simp, by simp, by simp, .nil, .nil⟩
  obtain rfl : x = entry := by simpa using hx
  exact .refl

/-- A node that has been seen before is passed over. -/
theorem skip (h : g.Searched entry (id :: queue) seen exits) (hid : id ∈ seen) :
    g.Searched entry queue seen exits := by
  have hmem (x : Nat) (hx : x ∈ id :: queue ++ seen) : x ∈ queue ++ seen := by
    rcases List.mem_cons.1 hx with rfl | hx
    · exact List.mem_append_right _ hid
    · exact hx
  refine ⟨fun x hx => ?_, hmem _ h.begun, fun x hx y hy => hmem y (h.followed x hx y hy), h.found,
    h.sorted, h.nodup⟩
  exact h.reached x (List.mem_cons_of_mem _ hx)

/-- There is no node of that number. -/
theorem miss (h : g.Searched entry (id :: queue) seen exits) (hn : g.get? id = none) :
    g.Searched entry queue (id :: seen) exits := by
  have hmem (x : Nat) : x ∈ queue ++ id :: seen ↔ x ∈ id :: queue ++ seen := by simp [or_left_comm]
  refine ⟨fun x hx => h.reached x ((hmem x).1 hx), (hmem _).2 h.begun, fun x hx y hy => ?_,
    fun x => ?_, h.sorted, h.nodup⟩
  · rcases List.mem_cons.1 hx with rfl | hx
    · obtain ⟨n, hn', -⟩ := hy
      rw [hn] at hn'
      cases hn'
    · exact (hmem y).2 (h.followed x hx y hy)
  · rw [h.found, List.mem_cons]
    constructor
    · exact fun ⟨hx, hstop⟩ => ⟨.inr hx, hstop⟩
    · rintro ⟨rfl | hx, n, hn', hstop⟩
      · rw [hn] at hn'
        cases hn'
      · exact ⟨hx, n, hn', hstop⟩

/-- A node is seen for the first time: what it leads to is queued. -/
theorem see (h : g.Searched entry (id :: queue) seen exits) (hnew : id ∉ seen)
    (hn : g.get? id = some n) :
    g.Searched entry (queue ++ n.targets) (id :: seen)
      (if n.isOpenExit then insertId id exits else exits) := by
  have hold (x : Nat) (hx : x ∈ id :: queue ++ seen) : x ∈ queue ++ n.targets ++ id :: seen := by
    simp only [List.cons_append, List.mem_cons, List.mem_append] at hx ⊢
    tauto
  have hstops : g.Stops id ↔ n.isOpenExit = true := by
    rw [Node.isOpenExit_iff]
    constructor
    · rintro ⟨k, hk, hstop⟩
      cases hn.symm.trans hk
      exact hstop
    · exact fun hstop => ⟨n, hn, hstop⟩
  have hfresh : id ∉ exits := fun hid => hnew ((h.found id).1 hid).1
  refine ⟨fun x hx => ?_, hold _ h.begun, fun x hx y hy => ?_, fun x => ?_, ?_, ?_⟩
  · simp only [List.mem_append, List.mem_cons] at hx
    rcases hx with (hx | hx) | rfl | hx
    · exact h.reached x (by simp [hx])
    · exact (h.reached id (by simp)).tail ⟨n, hn, Node.mem_targets.1 hx⟩
    · exact h.reached x (by simp)
    · exact h.reached x (by simp [hx])
  · rcases List.mem_cons.1 hx with rfl | hx
    · obtain ⟨k, hk, hnext⟩ := hy
      cases hn.symm.trans hk
      simp [Node.mem_targets.2 hnext]
    · exact hold y (h.followed x hx y hy)
  · rw [List.mem_cons]
    by_cases hopen : n.isOpenExit = true
    · rw [if_pos hopen, insertId_eq, List.mem_orderedInsert, h.found]
      constructor
      · rintro (rfl | ⟨hx, hstop⟩)
        · exact ⟨.inl rfl, hstops.2 hopen⟩
        · exact ⟨.inr hx, hstop⟩
      · rintro ⟨rfl | hx, hstop⟩
        · exact .inl rfl
        · exact .inr ⟨hx, hstop⟩
    · rw [if_neg hopen, h.found]
      constructor
      · exact fun ⟨hx, hstop⟩ => ⟨.inr hx, hstop⟩
      · rintro ⟨rfl | hx, hstop⟩
        · exact absurd (hstops.1 hstop) hopen
        · exact ⟨hx, hstop⟩
  · split
    · rw [insertId_eq]
      exact h.sorted.orderedInsert id exits
    · exact h.sorted
  · split
    · rw [insertId_eq]
      exact (List.perm_orderedInsert _ id exits).nodup_iff.2 (List.nodup_cons.2 ⟨hfresh, h.nodup⟩)
    · exact h.nodup

/-- Once nothing is queued, all has been seen that flow can reach. -/
theorem complete (h : g.Searched entry [] seen exits) (x : Nat) : x ∈ exits ↔ g.MayEnd entry x := by
  have hseen (hx : Relation.ReflTransGen g.Flows entry x) : x ∈ seen := by
    induction hx with
    | refl => simpa using h.begun
    | tail _ hlast ih => simpa using h.followed _ ih _ hlast
  rw [h.found]
  exact ⟨fun ⟨hx, hstop⟩ => ⟨h.reached x (by simpa using hx), hstop⟩,
    fun ⟨hx, hstop⟩ => ⟨hseen hx, hstop⟩⟩

end Searched

/-- A search with enough fuel comes to the end of its queue. -/
theorem search_spec {fuel entry : Nat} {queue seen exits : List Nat}
    (h : g.Searched entry queue seen exits) (hfuel : queue.length + 2 * g.unseen seen < fuel) :
    ∃ seen', g.Searched entry [] seen' (g.search fuel queue seen exits) := by
  induction fuel generalizing queue seen exits with
  | zero => omega
  | succ fuel ih =>
    cases queue with
    | nil => exact ⟨seen, h⟩
    | cons id queue =>
      rw [List.length_cons] at hfuel
      unfold search
      by_cases hid : id ∈ seen
      · rw [if_pos (List.contains_iff_mem.2 hid)]
        exact ih (h.skip hid) (by omega)
      · rw [if_neg (by simpa using hid)]
        cases hn : g.get? id with
        | none =>
          have := g.unseen_cons_le id seen
          exact ih (h.miss hn) (by omega)
        | some n =>
          have hless := unseen_cons_lt (lt_size hn) hid
          have htargets := n.targets_length
          refine ih (h.see hid hn) ?_
          rw [List.length_append]
          omega

theorem searched_terminals (g : Graph C H) (entry : NodeId) :
    ∃ seen, g.Searched entry [] seen (g.terminals entry) := by
  refine search_spec (Searched.begin g entry) ?_
  have hall : g.unseen [] = g.size := by simp [unseen]
  rw [hall, List.length_singleton]
  omega

/-- The search finds the ends of a chain. -/
theorem mem_terminals (g : Graph C H) (entry : NodeId) (x : Nat) :
    x ∈ g.terminals entry ↔ g.MayEnd entry x := by
  obtain ⟨seen, h⟩ := g.searched_terminals entry
  exact h.complete x

theorem terminals_ascending (g : Graph C H) (entry : NodeId) :
    (g.terminals entry).Pairwise (· < ·) := by
  obtain ⟨seen, h⟩ := g.searched_terminals entry
  exact h.sorted.imp₂ (fun a b hle hne => Nat.lt_of_le_of_ne hle hne) h.nodup

end Graph

end DurableWorkflow

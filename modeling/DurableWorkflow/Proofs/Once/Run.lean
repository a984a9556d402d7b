import DurableWorkflow.Proofs.Once.Poised
import DurableWorkflow.Proofs.Run.Entries
import DurableWorkflow.Proofs.Run.Watched

/-!
# Runs in custody

On a run the version in hand has the history with which the run began and entries from the books of
the run; some may be missing, of nodes after which the context could not be stored. The stored
version has the beginning of that (`Custody.InHand`). All nodes ahead lie behind those that the
entries tell of (`Custody.Level`), so a run asks nothing that is settled, and wherever it is dropped
the stored instance is poised.
-/

namespace DurableWorkflow

variable {C H R : Type}

namespace Custody

/-- The version in hand of a run that began with the version `u` and has these entries in its
books. -/
structure InHand (q : Custody C H R) (u last : Instance) (books : List StepTrace)
    (w : World R (H × Asks)) : Prop where
  id : last.id = q.id
  workflow : last.workflow = q.definition.id
  running : last.status = .running
  history : ∃ l, last.history = u.history ++ l ∧ q.Longer l books
  stored : ∃ t ∈ q.stored w, t.history <+: last.history ∧ q.Poised t

/-- What holds all the way on a walk. -/
structure Carries (q : Custody C H R) (u : Instance)
    (s : Board C (H × Asks) Instance × World R (H × Asks)) : Prop where
  inHand : q.InHand u s.1.extra s.1.ledger.trace s.2
  steps : ∀ x ∈ s.1.ledger.completed, x ∈ q.graph.steps

/-- Between two nodes of the main walk: all that the entries tell of is `B`. -/
structure Level (q : Custody C H R) (u : Instance) (B : StepTrace → Prop)
    (s : Board C (H × Asks) Instance × World R (H × Asks)) : Prop extends q.Carries u s where
  whole : q.whole → s.1.extra.history = u.history ++ s.1.ledger.trace
  past : ∀ t ∈ u.history ++ s.1.ledger.trace, B t

/-- What happens at a node touches neither the instance nor the entries of the main walk, and asks
only what is `A`. -/
structure Visits (q : Custody C H R) (A : Nat × Asked → Prop)
    (s t : Board C (H × Asks) Instance × World R (H × Asks)) : Prop where
  extra : t.1.extra = s.1.extra
  trace : t.1.ledger.trace = s.1.ledger.trace
  completed : ∀ x ∈ t.1.ledger.completed, x ∈ s.1.ledger.completed ∨ x ∈ q.graph.steps
  store : t.2.store = s.2.store
  asked : ∃ l, t.2.memory.2 = s.2.memory.2 ++ l ∧ ∀ a ∈ l, A a

/-- Where a run ends waiting, what its entries tell of is settled by them, or waits. -/
def Parks (q : Custody C H R) (u : Instance) (r : Report)
    (s : Board C (H × Asks) Instance × World R (H × Asks)) : Prop :=
  ∀ x, r.halt = .suspended x → ∀ signal,
    q.graph.Clears (u.history ++ s.1.ledger.trace) (.signal x.node x.pending signal)

/-- The walk leaves the instance in custody. -/
abbrev Travels (q : Custody C H R) (u : Instance)
    (path : Walk (Board C (H × Asks) Instance × World R (H × Asks)) Report)
    (s : Board C (H × Asks) Instance × World R (H × Asks)) : Prop :=
  path.Obeys (Beside q.Aside) (fun s t => q.Carries u s → q.Advances s.2 t.2 ∧ q.Carries u t)
    (q.Parks u) s

variable {q : Custody C H R} {c : Coordinator C (H × Asks) R} {u last : Instance}
  {books : List StepTrace} {w v : World R (H × Asks)} {A : Nat × Asked → Prop}
  {B : StepTrace → Prop} {s t : Board C (H × Asks) Instance × World R (H × Asks)}
  {x lo e : Nat} {l nodes : List Nat}

/-! ### The version in hand -/

theorem InHand.aside (h : q.InHand u last books w) (hv : q.Aside w v) :
    q.InHand u last books v := by
  obtain ⟨t, ht, hstored⟩ := h.stored
  exact ⟨h.id, h.workflow, h.running, h.history, t, hv.1 ▸ ht, hstored⟩

theorem InHand.note (h : q.InHand u last books w) (entries : List StepTrace) :
    q.InHand u last (books ++ entries) w := by
  obtain ⟨l, hl, hlonger⟩ := h.history
  exact ⟨h.id, h.workflow, h.running,
    ⟨l, hl, hlonger.trans (.of_begins (List.prefix_append books entries))⟩, h.stored⟩

theorem InHand.begins (h : q.InHand u last books w) :
    ∀ t ∈ q.stored w, t.history <+: last.history := by
  intro r hr
  obtain ⟨t, ht, hprefix, -⟩ := h.stored
  obtain rfl : t = r := Option.some.inj (ht.symm.trans hr)
  exact hprefix

theorem InHand.longer (h : q.InHand u last books w) :
    ∀ t ∈ q.stored w, q.Longer t.history (u.history ++ books) := by
  intro t ht
  obtain ⟨l, hl, hlonger⟩ := h.history
  exact (Longer.of_begins (h.begins t ht)).trans (hl ▸ hlonger.append u.history)

theorem InHand.settled (h : q.InHand u last books w) {t : Instance} (ht : t ∈ q.stored w)
    {a : Nat × Asked} (ha : Settled t.history a) : Settled (u.history ++ books) a :=
  ha.mono fun _ => (h.longer t ht).sublist.mem

theorem Carries.lasts : Lasts (Beside q.Aside) (q.Carries u) := by
  intro s t h hst
  obtain ⟨b, w⟩ := s
  obtain ⟨b', v⟩ := t
  obtain ⟨rfl, hv⟩ : b' = b ∧ q.Aside w v := hst
  exact ⟨h.inHand.aside hv, h.steps⟩

theorem Level.lasts : Lasts (Beside q.Aside) (q.Level u B) := by
  intro s t h hst
  have hcarries := Carries.lasts h.toCarries hst
  obtain ⟨b, w⟩ := s
  obtain ⟨b', v⟩ := t
  obtain ⟨rfl, -⟩ : b' = b ∧ q.Aside w v := hst
  exact ⟨hcarries, h.whole, h.past⟩

theorem Parks.lasts (r : Report) : Lasts (Beside q.Aside) (q.Parks u r) := by
  intro s t h hst
  unfold Parks
  rw [hst.1]
  exact h

/-! ### Visits -/

theorem Visits.carries (h : q.Visits A s t) (hs : q.Carries u s) : q.Carries u t := by
  obtain ⟨hid, hworkflow, hrunning, hhistory, hstored⟩ := hs.inHand
  have hsame : q.stored t.2 = q.stored s.2 := by rw [stored, h.store, stored]
  refine ⟨?_, fun x hx => (h.completed x hx).elim (hs.steps x) fun h => h⟩
  rw [h.extra, h.trace]
  exact ⟨hid, hworkflow, hrunning, hhistory, hsame ▸ hstored⟩

theorem Visits.level (h : q.Visits A s t) (hs : q.Level u B s) : q.Level u B t := by
  refine ⟨h.carries hs.toCarries, ?_, ?_⟩
  · rw [h.extra, h.trace]
    exact hs.whole
  · rw [h.trace]
    exact hs.past

theorem Visits.advances (h : q.Visits A s t) (hs : q.Carries u s)
    (hA : ∀ a, A a → ¬Settled (u.history ++ s.1.ledger.trace) a) : q.Advances s.2 t.2 := by
  obtain ⟨l, hl, hasked⟩ := h.asked
  exact .of_asked h.store hl fun a ha r hr hsettled =>
    hA a (hasked a ha) (hs.inHand.settled hr hsettled)

theorem environment_about (c : Coordinator C (H × Asks) R) (id : Uuid) (A : Nat × Asked → Prop) :
    (c.environment id).About q.graph (q.Visits A) where
  board b b' w h := ⟨h.extra, h.trace, fun x hx => .inl (h.completed ▸ hx), rfl, [], by simp, by simp⟩
  enter node s b w hs := by
    refine ⟨rfl, rfl, fun x hx => ?_, rfl, [], by simp, by simp⟩
    simp only [Board.enter, List.mem_append] at hx
    refine hx.imp_right fun hx => ?_
    split at hx
    · rw [List.mem_singleton.1 hx]
      exact hs
    · simp at hx
  publish b e w _ := ⟨rfl, rfl, fun _ => .inl, rfl, [], by simp [Coordinator.environment,
    World.publish], by simp⟩

theorem noting_visits {node : Nat} {asked : Asked} (hA : A (node, asked))
    (work : Work (C × H) StepResult) :
    ((c.environment q.id).onBoard (work.noting node asked)).Keeps (q.Visits A) := by
  refine Environment.onBoard_noting_keeps (fun b c m w => ?_) (fun b w => ?_) work
  · exact ⟨rfl, rfl, fun _ => .inl, rfl, [], by simp [Coordinator.environment], by simp⟩
  · exact ⟨rfl, rfl, fun _ => .inl, rfl, [(node, asked)], rfl, by simpa using hA⟩

theorem environment_tends (c : Coordinator C (H × Asks) R) (lo : Nat) :
    (c.environment q.id).Tends q.graph (lo ≤ ·) (q.Visits fun a => lo ≤ a.1) where
  toAbout := environment_about c q.id _
  execute node n s hnode hn hkind := by
    obtain ⟨s, rfl⟩ := Definition.step_noted hn hkind
    exact noting_visits hnode s.execute

/-- Nodes behind all entries have been asked nothing. -/
theorem not_settled_of_lt {entries : List StepTrace} (h : ∀ t ∈ entries, t.node < lo) {a : Nat × Asked}
    (ha : lo ≤ a.1) : ¬Settled entries a := by
  rintro ⟨t, ht, hnode, -⟩
  have hlt : t.node < a.1 := Nat.lt_of_lt_of_le (h t ht) ha
  exact Nat.ne_of_lt hlt hnode

/-- A step that waits may be asked for its reply. -/
theorem not_settled_reply {entries : List StepTrace} (h : ∀ t ∈ entries, t.UpTo x) :
    ¬Settled entries (x, .reply) := by
  rintro ⟨t, ht, hnode, hdone | ⟨hasked, -⟩⟩
  · obtain hlt | ⟨-, signal, hwaits⟩ := h t ht
    · exact Nat.ne_of_lt hlt hnode
    · simp [hwaits] at hdone
  · simp at hasked

/-! ### The walk -/

section Checkpoint

variable {b : Board C (H × Asks) Instance} {p : Checkpoint C}

/-- The version that a checkpoint brings is poised, whatever its revision. -/
theorem InHand.poised (h : q.InHand u last books w) (json : Json) (now : Timestamp)
    (hfrontier : p.frontier = nodes.reverse) (hahead : q.graph.Apart nodes e q.graph.size)
    (hpast : ∀ t ∈ last.history ++ p.trace, t.node < e) (n : Nat) :
    q.Poised { Coordinator.atCheckpoint last json p now with revision := n } := by
  refine .of_frontier h.id h.workflow h.running ?_ hfrontier hahead hpast
  simp [Instance.pendingDelivery, Coordinator.atCheckpoint, Instance.clearDelivery]

/-- From then on it is the version in hand, whether it has been stored or not. -/
theorem Level.advance (h : q.Carries u (b, w)) (json : Json) (now : Timestamp)
    (hhistory : ∃ l, b.extra.history = u.history ++ l ∧ q.Longer (l ++ p.trace) b.ledger.trace)
    (hwhole : q.whole → b.extra.history ++ p.trace = u.history ++ b.ledger.trace)
    (hpast : ∀ t ∈ u.history ++ b.ledger.trace, t.node < e)
    (hstored : ∃ t ∈ q.stored v, t.history <+: b.extra.history ++ p.trace ∧ q.Poised t) (n : Nat) :
    q.Level u (·.node < e)
      ({ b with extra := { Coordinator.atCheckpoint b.extra json p now with revision := n } }, v) := by
  obtain ⟨l, hl, hlonger⟩ := hhistory
  have hhistory : b.extra.history ++ p.trace = u.history ++ (l ++ p.trace) := by
    rw [hl, List.append_assoc]
  exact ⟨⟨⟨h.inHand.id, h.inHand.workflow, h.inHand.running, ⟨_, hhistory, hlonger⟩, hstored⟩,
    h.steps⟩, hwhole, hpast⟩

/-- A checkpoint that is saved, skipped or refused. -/
theorem save_level (hc : q.Serves c) (hcarries : q.Carries u (b, w))
    (hfrontier : p.frontier = nodes.reverse)
    (hhistory : ∃ l, b.extra.history = u.history ++ l ∧ q.Longer (l ++ p.trace) b.ledger.trace)
    (hwhole : q.whole → b.extra.history ++ p.trace = u.history ++ b.ledger.trace)
    (hpast : ∀ t ∈ u.history ++ b.ledger.trace, t.node < e)
    (hahead : q.graph.Apart nodes e q.graph.size) {x : Instance}
    (hsave : c.save p (b.extra, w) = .ok (x, v)) :
    q.Advances w v ∧ q.Level u (·.node < e) ({ b with extra := x }, v) := by
  obtain ⟨t, ht, hbegins, hpoised⟩ := hcarries.inHand.stored
  have hprefix : t.history <+: b.extra.history ++ p.trace := hbegins.trans (List.prefix_append _ _)
  have hpast' : ∀ t ∈ b.extra.history ++ p.trace, t.node < e := by
    obtain ⟨l, hl, hlonger⟩ := hhistory
    rw [hl, List.append_assoc]
    exact fun t ht => hpast t ((hlonger.append u.history).sublist.mem ht)
  unfold Coordinator.save at hsave
  simp only at hsave
  split at hsave
  · next hencode =>
    -- The entries of a checkpoint that is skipped are missing from then on.
    cases hsave
    refine ⟨.refl _, hcarries, fun hq => ?_, hpast⟩
    have := hc.encodes hq p.context
    simp [hencode] at this
  · next json _ =>
    have hready := hcarries.inHand.poised json w.wall hfrontier hahead hpast'
    have hstored := stored_persist hc.lawful (s := Coordinator.atCheckpoint b.extra json p w.wall)
      hcarries.inHand.id w
    split at hsave
    · next z v hreply =>
      cases hsave
      rw [hreply] at hstored
      obtain ⟨heq, hview⟩ | ⟨hne, -⟩ := hstored
      · cases heq
        refine ⟨.of_stored (fun r hr => ?_) (hready _) hview (congrArg (·.2.memory) hreply).symm,
          .advance hcarries json w.wall hhistory hwhole hpast
            ⟨_, hview, List.prefix_refl _, hready _⟩ _⟩
        obtain rfl : t = r := Option.some.inj (ht.symm.trans hr)
        exact .of_begins hprefix
      · exact absurd rfl (hne _)
    · next fault v hreply =>
      cases hsave
      rw [hreply] at hstored
      obtain ⟨heq, -⟩ | ⟨-, hview⟩ := hstored
      · simp at heq
      · have hmemory : v.memory = w.memory := (congrArg (·.2.memory) hreply).symm
        exact ⟨.of_aside ⟨hview, by rw [hmemory]⟩,
          .advance hcarries json w.wall hhistory hwhole hpast ⟨t, hview ▸ ht, hprefix, hpoised⟩ _⟩
    · simp at hsave

end Checkpoint

/-- A node is passed, and what is ahead lies behind it. -/
theorem pass_travels (hc : q.Serves c) {v : Visited} (hv : v.Of q.graph x e)
    (hstack : q.graph.Apart (x :: l) x q.graph.size) (hxe : x < e)
    (honward : ∀ n nodes, q.graph.get? x = some n → n.Onward nodes →
      q.graph.Apart (nodes ++ l) e q.graph.size)
    (hB : ∀ t, B t → t.UpTo x) {next : List NodeId → Walk (Board C (H × Asks) Instance ×
      World R (H × Asks)) Report}
    (hnext : ∀ nodes s, q.graph.Apart nodes e q.graph.size → q.Level u (·.node < e) s →
      q.Travels u (next nodes) s)
    {s : Board C (H × Asks) Instance × World R (H × Asks)} (hs : q.Level u B s) :
    q.Travels u ((c.environment q.id).pass x l v next) s := by
  intro s' hdrift
  have hs := hs.lasts hdrift
  obtain ⟨b, w⟩ := s'
  refine ⟨fun h => ⟨.refl _, h.inHand.note v.trace, h.steps⟩, ?_⟩
  -- The entries are in the books now, and not yet in the version in hand.
  have hcarries : q.Carries u ({ b with ledger.trace := b.ledger.trace ++ v.trace }, w) :=
    ⟨hs.inHand.note v.trace, hs.steps⟩
  have hupTo (t : StepTrace) (ht : t ∈ u.history ++ b.ledger.trace) : t.UpTo x := hB t (hs.past t ht)
  simp only
  split
  · next nodes hturn =>
    obtain ⟨⟨n, hn, hnodes⟩, -⟩ := hv.onward nodes hturn
    intro s' hdrift
    have hcarries := Carries.lasts hcarries hdrift
    obtain ⟨b', w'⟩ := s'
    obtain ⟨rfl, -⟩ : b' = _ ∧ q.Aside w w' := hdrift
    have hpast : ∀ t ∈ u.history ++ (b.ledger.trace ++ v.trace), t.node < e := by
      intro t ht
      rw [← List.append_assoc, List.mem_append] at ht
      rcases ht with ht | ht
      · obtain hlt | ⟨heq, -⟩ := hupTo t ht
        · exact Nat.lt_trans hlt hxe
        · exact Nat.lt_of_le_of_lt (Nat.le_of_eq heq) hxe
      · exact (hv.within t ht).2
    have hahead := honward n nodes hn hnodes
    simp only
    split
    · next x' w'' hsave =>
      have hsaved := save_level (b := { b with ledger.trace := b.ledger.trace ++ v.trace }) hc hcarries
        rfl ?_ ?_ hpast hahead hsave
      · exact ⟨fun _ => ⟨hsaved.1, hsaved.2.toCarries⟩, hnext _ _ hahead hsaved.2⟩
      · obtain ⟨k, hk, hlonger⟩ := hs.inHand.history
        refine ⟨k, hk, hlonger.sublist.append_right _, fun hq => ?_⟩
        have hsame := List.append_cancel_left (hk.symm.trans (hs.whole hq))
        exact hsame ▸ List.prefix_refl _
      · exact fun hq =>
          (congrArg (· ++ v.trace) (hs.whole hq)).trans (List.append_assoc ..)
    · exact ⟨fun h => ⟨.refl _, h⟩, fun y hy => by simp at hy⟩
  · exact fun y hy => by simp at hy
  · next signal limit hturn =>
    obtain ⟨t, htrace, hnode, houtcome⟩ := hv.suspended signal limit hturn
    rintro ⟨b', w'⟩ ⟨rfl, -⟩
    refine ⟨fun h => ⟨.of_aside ⟨rfl, rfl⟩, h.inHand.aside ⟨rfl, rfl⟩, h.steps⟩, fun y hy signal => ?_⟩
    cases hy
    refine ⟨by rw [List.reverse_reverse]; exact hstack, fun r hr => ?_⟩
    rw [htrace, ← List.append_assoc, List.mem_append, List.mem_singleton] at hr
    obtain hr | rfl := hr
    · exact hupTo r hr
    · exact .inr ⟨hnode, _, houtcome⟩

theorem brings_travels (hc : q.Serves c) {p : Environment.Part C (H × Asks) Instance
      (World R (H × Asks)) Visited}
    (hp : p.Brings Report.Stopped (q.Visits A) (Visited.Of q.graph x e))
    (hstack : q.graph.Apart (x :: l) x q.graph.size) (hxe : x < e)
    (honward : ∀ n nodes, q.graph.get? x = some n → n.Onward nodes →
      q.graph.Apart (nodes ++ l) e q.graph.size)
    (hB : ∀ t, B t → t.UpTo x)
    (hA : ∀ entries, (∀ t ∈ entries, B t) → ∀ a, A a → ¬Settled entries a)
    {next : List NodeId → Walk (Board C (H × Asks) Instance × World R (H × Asks)) Report}
    (hnext : ∀ nodes s, q.graph.Apart nodes e q.graph.size → q.Level u (·.node < e) s →
      q.Travels u (next nodes) s)
    {s : Board C (H × Asks) Instance × World R (H × Asks)} (hs : q.Level u B s) :
    q.Travels u (p fun v => (c.environment q.id).pass x l v next) s := by
  refine hp.obeys Level.lasts (fun s t hV hs => ⟨fun h => ?_, hV.level hs⟩) (fun r s hr _ => ?_)
    (fun v s hv hs => pass_travels hc hv hstack hxe honward hB hnext hs) hs
  · exact ⟨hV.advances h (hA _ hs.past), hV.carries h⟩
  · have hhalt : r.halt = .cancelled := beq_iff_eq.1 hr
    simp [Parks, hhalt]

theorem walkMain_travels (hc : q.Serves c) (horderly : q.definition.Orderly) (fuel : Nat)
    (hnodes : q.graph.Apart nodes lo q.graph.size)
    {s : Board C (H × Asks) Instance × World R (H × Asks)} (hs : q.Level u (·.node < lo) s) :
    q.Travels u ((c.environment q.id).walkMain q.graph fuel nodes) s := by
  induction fuel generalizing nodes lo s with
  | zero => cases nodes <;> simp [Environment.walkMain, Travels, Walk.Obeys, Parks]
  | succ fuel ih =>
    cases nodes with
    | nil => simp [Environment.walkMain, Travels, Walk.Obeys, Parks]
    | cons x l =>
      have hx := (hnodes.mem (List.mem_cons_self ..)).1
      obtain ⟨e, hxe, -, hvisit, honward⟩ := Environment.visit_stack (environment_tends c lo)
        horderly.noted hnodes hx
        (fun child => (c.environment q.id).walkBranch q.graph fuel [child] [])
        fun child e _ hchild => Environment.walkBranch_does (environment_tends c lo) horderly.noted
          fuel hchild (Nat.le_succ x) (fun m hm => by omega) (by simp)
      obtain ⟨mid, -, hrest⟩ := hnodes
      exact brings_travels hc hvisit ⟨mid, Nat.le_refl _, hrest⟩ hxe honward
        (fun t ht => .inl (Nat.lt_of_lt_of_le ht hx)) (fun _ h a ha => not_settled_of_lt h ha)
        (fun nodes s hahead hs => ih hahead hs) hs

theorem traverse_travels (hc : q.Serves c) (horderly : q.definition.Orderly) {start : StartPoint}
    (hstart : q.graph.Clears u.history start)
    {s : Board C (H × Asks) Instance × World R (H × Asks)} (hs : q.Level u (fun _ => True) s)
    (hbooks : s.1.ledger.trace = []) :
    q.Travels u ((c.environment q.id).traverse q.definition.noted start) s := by
  have hlevel {B : StepTrace → Prop} (hB : ∀ t ∈ u.history, B t) : q.Level u B s :=
    ⟨hs.toCarries, hs.whole, by rw [hbooks, List.append_nil]; exact hB⟩
  cases start with
  | root =>
    have hempty : u.history = [] := hstart
    have hroot : q.definition.noted.root ∈ [q.definition.noted.root] := by simp
    obtain ⟨hle, hlt⟩ := horderly.noted.within _ hroot
    have hahead : q.graph.Apart [q.definition.noted.root] 0 q.graph.size :=
      ⟨q.graph.size, hle, hlt, horderly.noted.inside.mono hle, Nat.le_refl _⟩
    exact walkMain_travels hc horderly _ hahead (hlevel (by simp [hempty]))
  | frontier nodes =>
    obtain ⟨lo, hahead, hpast⟩ := hstart
    exact walkMain_travels hc horderly _ hahead (hlevel hpast)
  | signal node pending signal =>
    obtain ⟨hstack, hpast⟩ := hstart
    have honward : ∃ e, node < e ∧ ∀ n nodes, q.graph.get? node = some n → n.Onward nodes →
        q.graph.Apart (nodes ++ pending.reverse) e q.graph.size := by
      cases hn : q.graph.get? node with
      | none => exact ⟨node + 1, Nat.lt_succ_self _, by simp⟩
      | some n =>
        obtain ⟨e, hlt, -, -, h⟩ := horderly.noted.onward hstack hn
        refine ⟨e, hlt, fun k nodes hk => ?_⟩
        cases hk
        exact h nodes
    obtain ⟨e, hlt, honward⟩ := honward
    have hdeliver : ((c.environment q.id).deliver q.graph node signal).Brings Report.Stopped
        (q.Visits (· = (node, .reply))) (Visited.Of q.graph node e) := by
      refine Environment.deliver_brings (environment_about c q.id _) signal
        (fun n s hn hkind => ?_) hlt
      obtain ⟨s, rfl⟩ := Definition.step_noted hn hkind
      exact noting_visits (A := (· = (node, .reply))) rfl (s.onSignal signal)
    exact brings_travels hc hdeliver hstack hlt honward (fun _ h => h)
      (fun _ h a ha => ha ▸ not_settled_reply h)
      (fun nodes s hahead hs => walkMain_travels hc horderly _ hahead hs) (hlevel hpast)

end Custody

end DurableWorkflow

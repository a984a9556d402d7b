import DurableWorkflow.Proofs.Course.Moves
import DurableWorkflow.Proofs.Course.Protocol
import DurableWorkflow.Proofs.Reading.Compile
import DurableWorkflow.Proofs.Run.Compensation
import DurableWorkflow.Proofs.Run.Ground
import DurableWorkflow.Proofs.Run.Passage
import DurableWorkflow.Proofs.Run.Watched

/-!
# Tours of a graph

A tour is the way of a walk with the nodes that it and its branches visit, one after another. In the
graph of a program that compiles every node names later ones only, and a tour from the root comes to
no node twice. So a run has an end, and it is refused no node where as many visits are admitted as
there are nodes (`Program.toured_once`).
-/

namespace DurableWorkflow

variable {C H X ω : Type}

namespace Environment

/-- The way of a walk from `x`, on which these nodes are visited in this order: each time the part of
the walk that has the node next acts, and the visit is counted. Between the steps the others may
change the world. -/
inductive Tour (env : Environment C H X ω) (g : Graph C H)
    (x : Walk (Board C H X × ω) Report × Board C H X × ω) :
    Walk (Board C H X × ω) Report × Board C H X × ω → List NodeId → Prop
  | start : Tour env g x x []
  | visit {y z : Walk (Board C H X × ω) Report × Board C H X × ω} {nodes : List NodeId} {node : NodeId}
    {part : Walk (Board C H X × ω) Report} (h : Tour env g x y nodes) (hpart : env.Faces g node part)
    (haction : part.ActionOf y z) (hcounted : z.2.1.visits = y.2.1.visits + 1) :
    Tour env g x z (nodes ++ [node])
  | step {y z : Walk (Board C H X × ω) Report × Board C H X × ω} {nodes : List NodeId}
    (h : Tour env g x y nodes) (hstep : Walk.Step y z) (hcounted : z.2.1.visits = y.2.1.visits) :
    Tour env g x z nodes
  | drift {path : Walk (Board C H X × ω) Report} {board : Board C H X} {w v : ω} {nodes : List NodeId}
    (h : Tour env g x (path, board, w) nodes) : Tour env g x (path, board, v) nodes

variable {env : Environment C H X ω} {g : Graph C H}
  {x y : Walk (Board C H X × ω) Report × Board C H X × ω} {part : Walk (Board C H X × ω) Report}
  {node : NodeId} {nodes : List NodeId}

/-! ### Which node is visited -/

/-- The node that is blamed when the first action of the walk is refused in the state `s`. -/
def blamed (s : Board C H X × ω) : Walk (Board C H X × ω) Report → Option NodeId
  | .act _ rest =>
    match rest s with
    | .done r => r.failure?.bind (·.node)
    | .act _ rest =>
      match rest s with
      | .done r => r.failure?.bind (·.node)
      | _ => none
    | _ => none
  | _ => none

theorem Faces.blamed (h : env.Faces g node part) {s : Board C H X × ω}
    (hs : env.cancelled s.2 = false) (hfull : env.options.maxNodeVisits ≤ s.1.visits) :
    blamed s part = some node := by
  have hrefused : (env.countVisit s).1 = .refused := by
    obtain ⟨b, w⟩ := s
    have hs : env.cancelled w = false := hs
    have hfull : b.visits + 1 > env.options.maxNodeVisits := Nat.lt_succ_of_le hfull
    simp [countVisit, hs, hfull]
  cases h with
  | main fuel ahead =>
    simp [Environment.blamed, walkMain, visit, Piece.update, hrefused, pass, Visited.engineFailure,
      Report.failure?, Failure.ofEngine]
  | branch fuel ahead trace =>
    simp [Environment.blamed, walkBranch, visit, Piece.update, hrefused, Visited.engineFailure,
      Report.failure?, Failure.ofEngine]

/-- Only one node is next. -/
theorem Faces.unique {node' : NodeId} (h : env.Faces g node part) (h' : env.Faces g node' part) {w : ω}
    (hw : env.cancelled w = false) (board : Board C H X) : node = node' := by
  have hfull : env.options.maxNodeVisits ≤ ({ board with visits := env.options.maxNodeVisits } :
    Board C H X).visits := Nat.le_refl _
  have hsame := (h.blamed (s := (_, w)) hw hfull).symm.trans (h'.blamed (s := (_, w)) hw hfull)
  exact Option.some.inj hsame

/-- Visits are counted only where the run is not cancelled. -/
theorem Faces.not_cancelled (h : env.Faces g node part) (haction : part.ActionOf x y)
    (hcounted : y.2.1.visits = x.2.1.visits + 1) : env.cancelled x.2.2 = false := by
  obtain ⟨rest, rfl⟩ : ∃ rest, part = .act (fun s => (env.countVisit s).2) rest := by
    cases h with
    | main fuel ahead => exact ⟨_, rfl⟩
    | branch fuel ahead trace => exact ⟨_, rfl⟩
  rw [haction.acts] at hcounted
  obtain ⟨w, board, v⟩ := x
  by_contra hcancelled
  rw [Bool.not_eq_false] at hcancelled
  have hsame : env.countVisit (board, v) = (.cancelled, board, v) := if_pos hcancelled
  rw [hsame] at hcounted
  simp at hcounted

/-! ### Tours -/

/-- An action is no visit, or it is the visit of the node that its part has next. -/
theorem action_ground {a : Multiset Nat} (h : part.ActionOf x y)
    (hx : x.1.Holds (env.ground g) (env.ground g).report a) (hs : (env.ground g).sound x.2 a) :
    ∃ b, (env.ground g).sound y.2 b ∧ y.1.Holds (env.ground g) (env.ground g).report b ∧
      (y.2.1.visits = x.2.1.visits ∧ b ≤ a ∨ y.2.1.visits = x.2.1.visits + 1 ∧
        ∃ node, env.Faces g node part ∧ node ::ₘ b ≤ a) := by
  rw [← add_zero a] at hs
  obtain ⟨b, hsound, hdeal, hy⟩ := Walk.Holds.action h hx hs
  rw [add_zero] at hsound
  simp only [add_zero] at hdeal
  exact ⟨b, hsound, hy, hdeal⟩

/-- A step is no visit, or it is the visit of a node that was held. -/
theorem step_ground {a : Multiset Nat} (h : Walk.Step x y)
    (hx : x.1.Holds (env.ground g) (env.ground g).report a) (hs : (env.ground g).sound x.2 a) :
    ∃ b, (env.ground g).sound y.2 b ∧ y.1.Holds (env.ground g) (env.ground g).report b ∧
      (y.2.1.visits = x.2.1.visits ∧ b ≤ a ∨ y.2.1.visits = x.2.1.visits + 1 ∧
        ∃ node part, env.Faces g node part ∧ part.ActionOf x y ∧ node ::ₘ b ≤ a) := by
  obtain ⟨part, haction⟩ | ⟨hstill, hy⟩ := Walk.Holds.step h hx
  · obtain ⟨b, hsound, hy, hsame | ⟨hcounted, node, hpart, hle⟩⟩ := action_ground haction hx hs
    · exact ⟨b, hsound, hy, .inl hsame⟩
    · exact ⟨b, hsound, hy, .inr ⟨hcounted, node, part, hpart, haction, hle⟩⟩
  · have hsame : y.2.1.visits = x.2.1.visits := by
      obtain heq | hstill := hstill
      · rw [heq]
      · exact hstill
    exact ⟨a, (env.ground g).sound_still hsame hs, hy, .inl ⟨hsame, le_refl a⟩⟩

/-- What walks hold is dealt on along a tour, by its visits and by what lies between them. -/
theorem Tour.deals {R : Type} [AddCommMonoid R] {S : Shares (Board C H X × ω) Report R}
    {F : Report → R → Prop} {a : R} {J : Board C H X × ω → R → List NodeId → Prop}
    (hdrift : ∀ board w v, S.still (board, w) (board, v))
    (hstill : ∀ {s t a nodes}, S.still s t → J s a nodes → J t a nodes)
    (hstep : ∀ {part s t a b nodes}, S.deal part (s, a) (t, b) → t.1.visits = s.1.visits →
      J s a nodes → J t b nodes)
    (hvisit : ∀ {part node s t a b nodes}, S.deal part (s, a) (t, b) →
      t.1.visits = s.1.visits + 1 → env.Faces g node part → env.cancelled s.2 = false →
      J s a nodes → J t b (nodes ++ [node]))
    (h : env.Tour g x y nodes) (hx : x.1.Holds S F a) (hs : S.sound x.2 a) (hbegin : J x.2 a []) :
    ∃ b, S.sound y.2 b ∧ y.1.Holds S F b ∧ J y.2 b nodes := by
  have hact {y z : Walk (Board C H X × ω) Report × Board C H X × ω}
      {part : Walk (Board C H X × ω) Report} {b : R} (haction : part.ActionOf y z)
      (hy : y.1.Holds S F b) (hsound : S.sound y.2 b) :
      ∃ c, S.sound z.2 c ∧ S.deal part (y.2, b) (z.2, c) ∧ z.1.Holds S F c := by
    rw [← add_zero b] at hsound
    obtain ⟨c, hsound', hdeal, hz⟩ := Walk.Holds.action haction hy hsound
    simp only [add_zero] at hsound' hdeal
    exact ⟨c, hsound', hdeal, hz⟩
  induction h with
  | start => exact ⟨a, hs, hx, hbegin⟩
  | visit h hpart haction hcounted ih =>
    obtain ⟨b, hsound, hy, hJ⟩ := ih
    obtain ⟨c, hsound', hdeal, hz⟩ := hact haction hy hsound
    exact ⟨c, hsound', hz, hvisit hdeal hcounted hpart (hpart.not_cancelled haction hcounted) hJ⟩
  | step h hmove hcounted ih =>
    obtain ⟨b, hsound, hy, hJ⟩ := ih
    obtain ⟨part, haction⟩ | ⟨hkept, hz⟩ := Walk.Holds.step hmove hy
    · obtain ⟨c, hsound', hdeal, hz⟩ := hact haction hy hsound
      exact ⟨c, hsound', hz, hstep hdeal hcounted hJ⟩
    · obtain hsame | hkept := hkept
      · exact ⟨b, hsame ▸ hsound, hz, hsame ▸ hJ⟩
      · exact ⟨b, S.sound_still hkept hsound, hz, hstill hkept hJ⟩
  | @drift path board w v nodes h ih =>
    obtain ⟨b, hsound, hy, hJ⟩ := ih
    exact ⟨b, S.sound_still (hdrift board w v) hsound, hy, hstill (hdrift board w v) hJ⟩

/-- Where a tour has come to, the nodes that it has visited and those that are still held are nodes
of the graph, each of them once. -/
theorem Tour.once (h : env.Tour g x y nodes)
    (hx : x.1.Holds (env.ground g) (env.ground g).report (range 0 g.size))
    (hvisits : x.2.1.visits = 0) :
    ∃ a, (env.ground g).sound y.2 a ∧ y.1.Holds (env.ground g) (env.ground g).report a ∧
      (nodes : Multiset Nat) + a ≤ range 0 g.size ∧ y.2.1.visits = nodes.length := by
  have hsound : (env.ground g).sound x.2 (range 0 g.size) := by
    intro hle
    have hcard : (range 0 g.size).card = g.size := Nat.card_Ico 0 g.size
    rwa [hvisits, hcard, Nat.zero_add]
  refine Tour.deals (S := env.ground g) (J := fun s a nodes =>
    (nodes : Multiset Nat) + a ≤ range 0 g.size ∧ s.1.visits = nodes.length) (fun _ _ _ => rfl)
    ?_ ?_ ?_ h hx hsound ⟨by simp, hvisits⟩
  · exact fun hstill hJ => ⟨hJ.1, hstill.trans hJ.2⟩
  · rintro part s t a b nodes (⟨-, hba⟩ | ⟨hmore, -⟩) hsame ⟨hle, hlength⟩
    · exact ⟨(add_le_add_right hba _).trans hle, hsame.trans hlength⟩
    · exact absurd (hmore.symm.trans hsame) (Nat.succ_ne_self _)
  · rintro part node s t a b nodes (⟨hsame, -⟩ | ⟨-, node', hpart', hgiven⟩) hcounted hpart hcalm
      ⟨hle, hlength⟩
    · exact absurd (hcounted.symm.trans hsame) (Nat.succ_ne_self _)
    · obtain rfl : node = node' := hpart.unique hpart' hcalm s.1
      refine ⟨?_, by rw [hcounted, hlength, List.length_append, List.length_singleton]⟩
      calc ((nodes ++ [node] : List Nat) : Multiset Nat) + b
          = nodes + node ::ₘ b := by
            rw [← Multiset.coe_add, add_assoc, Multiset.coe_singleton, Multiset.singleton_add]
        _ ≤ nodes + a := add_le_add_right hgiven _
        _ ≤ range 0 g.size := hle

/-- Every way of a walk that holds the graph is a tour. -/
theorem exists_tour (h : Moves (Beside fun _ _ => True) Walk.Step x y)
    (hx : x.1.Holds (env.ground g) (env.ground g).report (range 0 g.size))
    (hvisits : x.2.1.visits = 0) : ∃ nodes, env.Tour g x y nodes := by
  induction h with
  | refl => exact ⟨[], .start⟩
  | @tail y z _ hmove ih =>
    obtain ⟨nodes, htour⟩ := ih
    obtain hstep | ⟨hpath, hboard, -⟩ := hmove
    · obtain ⟨a, hsound, hy, -⟩ := htour.once hx hvisits
      obtain ⟨-, -, -, ⟨hsame, -⟩ | ⟨hcounted, node, part, hpart, haction, -⟩⟩ :=
        step_ground hstep hy hsound
      · exact ⟨nodes, .step htour hstep hsame⟩
      · exact ⟨nodes ++ [node], .visit htour hpart haction hcounted⟩
    · obtain ⟨path, board, w⟩ := y
      obtain ⟨path', board', v⟩ := z
      obtain rfl : path' = path := hpath
      obtain rfl : board' = board := hboard
      exact ⟨nodes, .drift htour⟩

/-! ### Runs -/

variable {d : Definition C H} {start : StartPoint} {context : C} {extra : X} {w v : ω}

/-- Nothing is demanded of a course but that its walk has come from this one. -/
def trailing (x : Walk (Board C H X × ω) Report × Board C H X) : Watch ω (Board C H X) Report where
  good _ := True
  others _ _ := True
  own _ _ := True
  pace _ _ := True
  mark path board v := ∃ u, Moves (Beside fun _ _ => True) Walk.Step (x.1, x.2, u) (path, board, v)
  refl _ := trivial
  trans _ _ := trivial
  own_refl _ := trivial

/-- The walk of a run that is under way has come from the beginning of its traversal. -/
theorem run_walks {cancelled : ω → Bool} {limit : Option Nanos} {board : Board C H X}
    {path : Walk (Board C H X × ω) Report}
    {rest : Board C H X → Option Report → Op C H X ω (X × Option (RunResult C))}
    (h : Moves (fun _ _ => True) Course.Step (env.run d start context extra, w)
      (.walk cancelled limit board path rest, v)) :
    ∃ u, Moves (Beside fun _ _ => True) Walk.Step
      (env.traverse d start, { context, extra }, u) (path, board, v) := by
  let trail := trailing (X := X) (env.traverse d start, ({ context, extra } : Board C H X))
  have hguides : trail.Guides trail.mark := by
    refine ⟨?_, ?_, id⟩
    · rintro path board w v ⟨u, hmoves⟩ -
      exact ⟨u, hmoves.tail (.inr ⟨rfl, rfl, trivial⟩)⟩
    · rintro path path' board board' w w' ⟨u, hmoves⟩ - hstep
      exact ⟨trivial, u, hmoves.tail (.inl hstep)⟩
  have hconclude (begin : Nat) (board : Board C H X) (o : RunOutcome) (v : ω) :
      (env.conclude d begin board o).Heeds trail (fun _ _ => True) v := by
    refine (conclude_heeds (F := fun _ _ => True) (fun _ _ _ _ _ => trivial) (fun _ _ => trivial)
      (fun _ _ _ _ => trivial) d begin o (fun _ x _ work _ => ?_) trivial).mono fun _ _ _ => trivial
    exact onBoard_keeps (fun _ _ _ _ _ _ => ⟨trivial, trivial⟩) work
  have hrun : (env.run d start context extra).Heeds trail (fun _ _ => True) w :=
    run_heeds hguides (fun _ _ => trivial) (fun _ _ _ _ _ => ⟨_, .refl⟩)
      (fun begin board r v _ _ o _ => hconclude begin board o v) (fun _ _ _ _ _ _ => trivial)
      fun begin path board v _ => hconclude begin board _ v
  obtain ⟨⟨K, hK, hpath, -⟩, -⟩ := Course.Heeds.moves (P := trail) (G := fun _ => True)
    (fun _ _ _ _ _ => trivial) (fun _ => trivial) (fun _ _ => trivial) (fun _ _ => trivial)
    (fun _ _ => trivial) h hrun trivial
  exact hK.mark hpath

/-- A run that is not cancelled and is not late is refused no node where enough visits are
admitted. -/
theorem run_finds (horderly : d.Orderly) (hvisits : d.graph.size ≤ env.options.maxNodeVisits)
    {extra' : X} {result : RunResult C}
    (h : Moves (fun _ _ => True) Course.Step (env.run d .root context extra, w)
      (.done (extra', some result), v)) {f : Failure} (hf : result.outcome = .failed f) :
    ¬f.IsLoss := by
  obtain ⟨u, t, path, board, report, -, -, hpasses⟩ := run_passes (outside_true env _) h
  by_cases htime : result.IsLate d
  · obtain ⟨limit, -, hlate⟩ := htime
    rw [hf, RunOutcome.failed.injEq] at hlate
    subst hlate
    exact Failure.not_isLoss (.inr (by simp [lateFailure, Failure.ofRun]))
  · obtain ⟨r, rfl, houtcome⟩ := hpasses.report htime
    have hhalt : r.halt = .failed f := (halt_of_outcome houtcome).2.1 f hf
    have hbegin : (env.ground d.graph).sound ({ context, extra }, u) (range 0 d.graph.size) := by
      intro hle
      have hcard : (range 0 d.graph.size).card = d.graph.size := Nat.card_Ico 0 d.graph.size
      rwa [hcard, Nat.zero_add]
    obtain ⟨a, -, hreport⟩ := (traverse_ground horderly).moves (fun hst => congrArg Board.visits hst.1)
      hpasses.walked hbegin
    exact hreport hvisits f hhalt

/-- A run from the root visits each node at most once, and has an end. -/
structure ToursOnce (env : Environment C H X ω) (d : Definition C H) (context : C) (extra : X)
    (w : ω) : Prop where
  /-- The walk of the run is on a tour all the time. -/
  toured : ∀ {cancelled limit board path rest v}, Moves (fun _ _ => True) Course.Step
    (env.run d .root context extra, w) (.walk cancelled limit board path rest, v) →
    ∃ u nodes, env.Tour d.graph (env.traverse d .root, { context, extra }, u) (path, board, v) nodes
  once : ∀ {u y nodes}, env.Tour d.graph (env.traverse d .root, { context, extra }, u) y nodes →
    nodes.Nodup ∧ (∀ node ∈ nodes, node < d.graph.size) ∧ y.2.1.visits = nodes.length
  /-- It does not go on forever, whatever the others do between its steps. -/
  ends : ∀ x : Nat → Op C H X ω (X × Option (RunResult C)) × ω,
    (x 0).1 = env.run d .root context extra → ∃ n, ¬∃ v, Course.Step ((x n).1, v) (x (n + 1))
  /-- It does not get stuck. -/
  goesOn : ∀ {c v}, Moves (fun _ _ => True) Course.Step (env.run d .root context extra, w) (c, v) →
    (∃ r, c = .done r) ∨ (∃ m, c = .crash m) ∨ ∃ y, Course.Step (c, v) y
  /-- It fails neither by the limit on visits nor for want of a node. -/
  finds : d.graph.size ≤ env.options.maxNodeVisits → ∀ {extra' result v},
    Moves (fun _ _ => True) Course.Step (env.run d .root context extra, w)
      (.done (extra', some result), v) → ∀ f, result.outcome = .failed f → ¬f.IsLoss

theorem toursOnce_of_orderly (horderly : d.Orderly) : env.ToursOnce d context extra w where
  toured h := by
    obtain ⟨u, hmoves⟩ := run_walks h
    obtain ⟨nodes, htour⟩ := exists_tour hmoves (traverse_ground horderly) rfl
    exact ⟨u, nodes, htour⟩
  once htour := by
    obtain ⟨a, -, -, hle, hlength⟩ := htour.once (traverse_ground horderly) rfl
    have hnodes : ((_ : List Nat) : Multiset Nat) ≤ range 0 d.graph.size :=
      (Multiset.le_add_right _ a).trans hle
    refine ⟨?_, fun node hnode => ?_, hlength⟩
    · exact Multiset.coe_nodup.1 (Multiset.nodup_of_le hnodes Multiset.nodup_Ico)
    · exact (Multiset.mem_Ico.1 (Multiset.mem_of_le hnodes (Multiset.mem_coe.2 hnode))).2
  ends x _ := Course.breaks_off x
  goesOn {c v} _ := Course.ended_or_step v c
  finds hvisits _ _ _ h _ hf := run_finds horderly hvisits h hf

end Environment

/-- In the graph of a program that compiles every node names later ones only, and a run from its
root visits each node at most once, whatever comes of its choices and its steps, and in whatever
order its branches go on. -/
theorem Program.toured_once {registry : Registry C H} {p : Program C H} {d : Definition C H}
    (hd : p.compile registry = .ok d) :
    (∀ (id : Nat) n, d.graph.get? id = some n → ∀ m ∈ n.links, id < m ∧ m < d.graph.size) ∧
      ∀ (env : Environment C H X ω) (context : C) (extra : X) (w : ω),
        env.ToursOnce d context extra w := by
  have horderly := p.orderly_of_compile registry hd
  refine ⟨fun id n hn m hm => ?_, fun env context extra w => Environment.toursOnce_of_orderly horderly⟩
  exact horderly.inside id n (Nat.zero_le id) (Graph.lt_size hn) hn m hm

/-! ### An excursion -/

/-- A place to stop at. -/
def stopping (name : String) : Step Nat Unit where
  name := name
  execute := .act (fun (stops, u) => (stops + 1, u)) fun _ => .done .success

/-- Down to the harbour; at low tide over the sands to the lighthouse; then some look at the boats
while others go to the market and have lunch; and home again. -/
def excursion : Program Nat Unit where
  id := "excursion"
  version := "1.0.0"
  calls :=
    [ .start (stopping "harbour"),
      .append (.choice (fun stops => .ok (stops == 0))
        [.whenTrue [.step (stopping "sands"), .step (stopping "lighthouse")]]),
      .append (.parallel [.single (stopping "boats"),
        .chain [.step (stopping "market"), .step (stopping "lunch")]]),
      .append (.step (stopping "home")) ]

/-- As many visits are admitted as there are nodes. -/
def inADay : Environment Nat Unit Unit Unit :=
  { Environment.quietly with options := { maxNodeVisits := 9 } }

/-- The tide is high, and the excursion comes to its end. -/
theorem Program.toured_once_excursion : ∃ (d : Definition Nat Unit) (result : RunResult Nat),
    excursion.compile {} = .ok d ∧ d.graph.size = inADay.options.maxNodeVisits ∧
      Moves (fun _ _ => True) Course.Step (inADay.run d .root 0 (), ())
        (.done ((), some result), ()) ∧
      result.outcome = .completed ∧ result.metrics.executed = 5 ∧
      (∀ (id : Nat) n, d.graph.get? id = some n → ∀ m ∈ n.links, id < m ∧ m < 9) ∧
      inADay.ToursOnce d 0 () () := by
  obtain ⟨d, hd, hsize, hrun⟩ : ∃ d, excursion.compile {} = .ok d ∧ d.graph.size = 9 ∧
      ((inADay.run d .root 0 ()).inOrder ((), [])).bind (fun x =>
        (Environment.result? x.1).map fun result => (result.outcome, result.metrics.executed)) =
        some (.completed, 5) := ⟨_, rfl, rfl, by decide +kernel⟩
  obtain ⟨⟨⟩, result, ⟨⟩, hmoves, hcounted⟩ := Environment.exists_of_inOrder hrun fun _ _ => True
  obtain ⟨houtcome, hexecuted⟩ := Prod.mk.inj hcounted
  obtain ⟨hforward, honce⟩ := Program.toured_once (X := Unit) (ω := Unit) hd
  rw [hsize] at hforward
  exact ⟨d, result, hd, hsize, hmoves, houtcome, hexecuted, hforward, honce inADay 0 () ()⟩

end DurableWorkflow

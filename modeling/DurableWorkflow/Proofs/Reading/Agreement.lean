import DurableWorkflow.Proofs.Reading.Compile
import DurableWorkflow.Proofs.Reading.Follow
import DurableWorkflow.Proofs.Walk.Step

/-!
# Running a program agrees with reading it

The walk of the graph that a program is compiled to does the steps that a direct reading of the
program does, in the same order and on the same states, and ends the same way. The induction is on
the program: a chain that lies in the graph is followed by every walk, and a fork by the walks of
its branches, one after the other.
-/

namespace DurableWorkflow

variable {C H X ω : Type}

section

variable {env : Environment C H X ω} {g : Graph C H}

/-- The walk of a branch reports what its reading says, which counts as it does in a branch. -/
theorem Walker.branch_reports {budget : Nat} {node : NodeId} {p : Scene C H}
    {told : Option (Told C H)} (h : (Walker.branch env g).Follows budget [node] [] p told)
    {fuel : Nat} {x : Stand C H X ω} (hp : p.Seen env x)
    (hbudget : x.1.1.visits + budget ≤ env.options.maxNodeVisits)
    (hfuel : env.options.maxNodeVisits < fuel + x.1.1.visits) :
    ∃ q e y report, told = some (q, e) ∧ q.Seen env y ∧ x.1.1.visits ≤ y.1.1.visits ∧
      y.1.1.visits ≤ x.1.1.visits + budget ∧
      (env.walkBranch g fuel [node] []).inOrder x = some (report, y) ∧
      report.isCancelled = false ∧
      Option.Rel (Ending.Fails g) (e.map Ending.inBranch) report.failure? := by
  obtain ⟨q, e, y, htold, hq, hlo, hhi, hy⟩ := h fuel [] [] x hp hbudget hfuel
  cases e with
  | none =>
    obtain ⟨fuel', trace', -, hwalk⟩ := hy
    obtain ⟨report, hhalt, hdrained⟩ := (Walker.branch env g).drained fuel' trace' y
    refine ⟨q, none, y, report, htold, hq, hlo, hhi, hwalk.trans hdrained, ?_, ?_⟩
    · rw [Report.isCancelled, hhalt]; rfl
    · rw [Report.failure?, hhalt]; exact .none
  | some e =>
    obtain ⟨node', turn, report, hturn, hends, hwalk⟩ := hy
    obtain ⟨f, hf, hhalt⟩ : ∃ f, e.inBranch.Fails g f ∧ report.halt = .failed f := by
      cases e with
      | suspended s signal limit =>
        obtain ⟨hs, rfl⟩ := hturn
        exact ⟨_, ⟨node', hs, rfl⟩, hends⟩
      | failed | stranded | undecided =>
        obtain ⟨f, hf, rfl⟩ := hturn
        exact ⟨f, hf, hends⟩
    refine ⟨q, some e, y, report, htold, hq, hlo, hhi, hwalk, ?_, ?_⟩
    · rw [Report.isCancelled, hhalt]; rfl
    · rw [Report.failure?, hhalt]; exact .some hf

section

variable {registry : Registry C H}

/-- A step is passed by one visit. -/
theorem Walker.follows_step (hcalm : env.Calm) (W : Walker env g) {s : Step C H} (hs : s.Prompt)
    {node : NodeId} {next : Option NodeId} (hnode : g.get? node = some ⟨.step s, next⟩)
    (p : Scene C H) : W.Follows 1 [node] next.toList p (s.read env.options.retry p) := by
  refine W.follows_visit 0 fun fuel x hp hbudget _ => ?_
  obtain ⟨q, outcome, n, v, y, hread, hstep, hturn, hq, hvisits⟩ :=
    Environment.runStep_gives hcalm hs node next hp.count
  refine ⟨q, s.ending n outcome, v, y, hread,
    Environment.visit_gives hcalm hnode (by omega) hstep, hq,
    Nat.le_of_eq hvisits.symm, Nat.le_of_eq hvisits, ?_⟩
  rw [hturn]
  cases outcome with
  | success => rfl
  | failure error shouldRetry => exact ⟨_, ⟨node, ⟨next, hnode⟩, rfl⟩, rfl⟩
  | suspended signal limit => exact ⟨⟨next, hnode⟩, rfl⟩

/-- A node that only says where to go on is passed by one visit. -/
theorem Walker.follows_jump (hcalm : env.Calm) (W : Walker env g) {node : NodeId} {n : Node C H}
    {next : List NodeId} (hnode : g.get? node = some n) (p : Scene C H)
    (h : ∀ branch (x : Stand C H X ω), p.Seen env x →
      (env.enter branch node n).Gives x (.onward next) x) :
    W.Follows 1 [node] next p (some (p, none)) := by
  refine W.follows_visit 0 fun fuel x hp hbudget _ => ?_
  exact ⟨p, none, .onward next, _, rfl,
    Environment.visit_gives hcalm hnode (by omega) (h _ _ hp.count), hp.count,
    Nat.le_refl _, Nat.le_refl _, rfl⟩

/-- Branches run one after the other report what their readings say. -/
def Reports (env : Environment C H X ω) (g : Graph C H) (budget : Nat) (children : List NodeId)
    (p : Scene C H) (told : Option (Told C H)) : Prop :=
  ∀ fuel x, p.Seen env x → x.1.1.visits + budget ≤ env.options.maxNodeVisits →
    env.options.maxNodeVisits < fuel + x.1.1.visits →
    ∃ q e y reports, told = some (q, e) ∧ q.Seen env y ∧ x.1.1.visits ≤ y.1.1.visits ∧
      y.1.1.visits ≤ x.1.1.visits + budget ∧
      inOrderAll (children.map fun child => env.walkBranch g fuel [child] []) x =
        some (reports, y) ∧
      reports.any Report.isCancelled = false ∧
      Option.Rel (Ending.Fails g) e (reports.findSome? Report.failure?)

/-- One more branch in front. -/
theorem Reports.cons {a b : Nat} {node : NodeId} {children : List NodeId} {p : Scene C H}
    {told : Option (Told C H)} {later : Scene C H → Option (Told C H)}
    (h : (Walker.branch env g).Follows a [node] [] p told)
    (h' : ∀ q, Reports env g b children q (later q)) :
    Reports env g (a + b) (node :: children) p (do
      let (q, e) ← told
      let (q, e') ← later q
      return (q, (e.map Ending.inBranch).or e')) := by
  intro fuel x hp hbudget hfuel
  obtain ⟨q, e, y, report, rfl, hq, hlo, hhi, hwalk, hnot, hrel⟩ :=
    Walker.branch_reports h hp (by omega) hfuel
  obtain ⟨q', e', z, reports, hlater, hq', hlo', hhi', hwalks, hnone, hrels⟩ :=
    h' q fuel y hq (by omega) (by omega)
  refine ⟨q', (e.map Ending.inBranch).or e', z, report :: reports, ?_, hq', by omega, by omega,
    ?_, ?_, ?_⟩
  · simp only [Option.bind_eq_bind, Option.bind_some, hlater]
    rfl
  · simp only [List.map_cons, inOrderAll, hwalk, hwalks, Option.map_some]
  · rw [List.any_cons, hnot, hnone]; rfl
  · rw [List.findSome?_cons]
    revert hrel
    cases report.failure? <;> cases e <;> intro hrel <;> cases hrel
    · exact hrels
    · exact .some ‹_›

end

variable (registry : Registry C H)

mutual

theorem Item.follows (hcalm : env.Calm) (hg : g.Prompt) (W : Walker env g) :
    ∀ (item : Item C H) {node : NodeId} {next : Option NodeId}, item.At registry g node next → ∀ p,
    W.Follows item.nodes [node] next.toList p (item.read registry env.options.retry p)
  | .step s, node, next, h, p => W.follows_step hcalm (hg.step h) h p
  | .registered type, node, next, ⟨s, hs, h⟩, p => by
    rw [Item.read, hs]
    exact W.follows_step hcalm (hg.step h) h p
  | .delay d, node, next, h, p =>
    W.follows_jump hcalm h p fun _ x _ => (Environment.resting_gives d x).bind .pure
  | .choice holds arms, node, next, ⟨t, e, own, h, htrue, hfalse, hown⟩, p => by
    have hchoose (x : Stand C H X ω) (hx : p.Seen env x) :
        (Piece.read fun s => holds s.1.context : Environment.Part C H X ω _).Gives x
          (holds p.state.1) x := by
      rw [← hx.state]
      exact .read _
    cases hside : holds p.state.1 with
    | error m =>
      rw [Item.read, hside]
      refine (W.follows_visit 0 fun fuel x hp hbudget _ => ?_).mono (Nat.le_add_right 1 _)
      refine ⟨p, _, .engineFailure "conditional" node ("conditional predicate panicked: " ++ m), _,
        rfl, Environment.visit_gives hcalm h (by omega) ((hchoose _ hp.count).bind ?_), hp.count,
        Nat.le_refl _, Nat.le_refl _, ⟨_, ⟨node, rfl⟩, rfl⟩⟩
      rw [hside]
      exact .pure
    | ok side =>
      have harm : ArmAt registry g side (if side then t else e) next arms := by
        cases side
        · exact hfalse
        · exact htrue
      have hgo : ((if side then t else e).or own) = (if side then t else e).or next := by
        cases side <;> cases t <;> cases e <;> simp_all
      have hjump : W.Follows 1 [node] ((if side then t else e).or next).toList p (some (p, none)) :=
        W.follows_jump hcalm h p fun _ x hx => (hchoose x hx).bind (by
          rw [hside, ← hgo]
          exact .pure)
      rw [Item.read, hside]
      exact hjump.trans fun q => armFollows hcalm hg W side arms harm q
  | .parallel branches, node, next, ⟨children, h, hchildren⟩, p => by
    refine W.follows_visit _ fun fuel x hp hbudget hfuel => ?_
    have hroom : x.1.1.visits + 1 + branchesNodes branches ≤ env.options.maxNodeVisits := by omega
    have hmore : env.options.maxNodeVisits < fuel + (x.1.1.visits + 1) := by omega
    obtain ⟨q, e, y, reports, hread, hq, hlo, hhi, hwalks, hnone, hrel⟩ :=
      branchesReport hcalm hg branches hchildren p fuel _ hp.count hroom hmore
    have hvisits : y.1.1.visits ≤ x.1.1.visits + 1 + branchesNodes branches := hhi
    refine ⟨q, e, Environment.join reports next, y, hread,
      Environment.visit_gives hcalm h (by omega)
        ((Piece.Gives.fork hwalks).bind ((Environment.isCancelled_gives hcalm y).bind ?_)), hq,
      hlo, by omega, ?_⟩
    · rw [hnone]
      exact .pure
    · rw [Environment.join]
      generalize reports.findSome? Report.failure? = failure at hrel
      cases hrel with
      | none => rfl
      | some h => exact h.turns node
  | .sequence items, node, next, ⟨children, h, hparts⟩, p => by
    have hjump : W.Follows 1 [node] (children ++ next.toList) p (some (p, none)) :=
      W.follows_jump hcalm h p fun _ x _ => .pure
    exact hjump.trans fun q => (partsFollow hcalm hg W items hparts q).frame next.toList

theorem itemsFollow (hcalm : env.Calm) (hg : g.Prompt) (W : Walker env g) :
    ∀ (items : List (Item C H)) {entry next : Option NodeId},
    ItemsAt registry g entry next items → ∀ p,
    W.Follows (itemsNodes items) (entry.or next).toList next.toList p
      (readItems registry env.options.retry items p)
  | [], _, _, rfl, _ => .refl
  | item :: items, _, _, ⟨_, _, rfl, hitem, hitems⟩, p =>
    (Item.follows hcalm hg W item hitem p).trans fun q => itemsFollow hcalm hg W items hitems q

theorem partsFollow (hcalm : env.Calm) (hg : g.Prompt) (W : Walker env g) :
    ∀ (items : List (Item C H)) {children : List NodeId}, PartsAt registry g children items → ∀ p,
    W.Follows (itemsNodes items) children [] p (readItems registry env.options.retry items p)
  | [], _, rfl, _ => .refl
  | item :: items, _, ⟨_, rest, rfl, hitem, hitems⟩, p =>
    ((Item.follows hcalm hg W item hitem p).frame rest).trans
      fun q => partsFollow hcalm hg W items hitems q

theorem armFollows (hcalm : env.Calm) (hg : g.Prompt) (W : Walker env g) (side : Bool) :
    ∀ (arms : List (Arm C H)) {entry next : Option NodeId},
    ArmAt registry g side entry next arms → ∀ p,
    W.Follows (armsNodes arms) (entry.or next).toList next.toList p
      (readArm registry env.options.retry side arms p)
  | [], _, next, rfl, p => .refl
  | .whenTrue items :: arms, entry, next, h, p => by
    cases side with
    | true => exact (itemsFollow hcalm hg W items h p).mono (Nat.le_add_right _ _)
    | false => exact (armFollows hcalm hg W false arms h p).mono (Nat.le_add_left _ _)
  | .whenFalse items :: arms, entry, next, h, p => by
    cases side with
    | true => exact (armFollows hcalm hg W true arms h p).mono (Nat.le_add_left _ _)
    | false => exact (itemsFollow hcalm hg W items h p).mono (Nat.le_add_right _ _)

theorem branchesReport (hcalm : env.Calm) (hg : g.Prompt) :
    ∀ (branches : List (Branch C H)) {children : List NodeId},
    BranchesAt registry g children branches → ∀ p,
    Reports env g (branchesNodes branches) children p
      (readBranches registry env.options.retry branches p)
  | [], _, rfl, p => fun _ x hp _ _ =>
    ⟨p, none, x, [], rfl, hp, Nat.le_refl _, Nat.le_refl _, rfl, rfl, .none⟩
  | .single _ :: branches, _, ⟨node, rest, rfl, hnode, hrest⟩, p =>
    .cons ((Walker.branch env g).follows_step hcalm (hg.step hnode) hnode p)
      fun q => branchesReport hcalm hg branches hrest q
  | .chain items :: branches, _, ⟨node, rest, rfl, hitems, hrest⟩, p =>
    .cons (itemsFollow hcalm hg (Walker.branch env g) items hitems p)
      fun q => branchesReport hcalm hg branches hrest q

end

/-! ### Whole runs -/

/-- How a run ends whose reading ends like this. -/
def Concludes (g : Graph C H) : Option (Ending C H) → RunOutcome → Prop
  | none, o => o = .completed
  | some (.suspended s signal limit), o =>
    ∃ node pending, g.HasStep node s ∧ o = .suspended ⟨signal, limit, node, pending⟩
  | some e, o => ∃ f, e.Fails g f ∧ o = .failed f

/-- Undoing steps that never wait comes to an end. -/
theorem undo_inOrder (hcalm : env.Calm) (board : Board C H X) (u : Environment.Undone)
    (steps : List (NodeId × Step C H)) (hsteps : ∀ s ∈ steps, s.2.Prompt)
    (s : ω × List (Called (Board C H X × ω))) :
    ∃ board' u' w, (env.undo board u steps).inOrder s = some (.done (board', u'), w, s.2) ∧
      board'.extra = board.extra ∧ (steps = [] → board' = board ∧ w = s.1) := by
  induction steps generalizing board u s with
  | nil => exact ⟨board, u, s.1, rfl, rfl, fun _ => ⟨rfl, rfl⟩⟩
  | cons step steps ih =>
    obtain ⟨node, step⟩ := step
    have hrest : ∀ s ∈ steps, s.2.Prompt := fun s hs => hsteps s (List.mem_cons_of_mem _ hs)
    cases hwork : step.compensate with
    | none =>
      obtain ⟨board', u', w, hrun, hextra, -⟩ := ih board u hrest s
      exact ⟨board', u', w, by simpa only [Environment.undo, hwork] using hrun, hextra, by simp⟩
    | some work =>
      have hprompt := (hsteps _ (List.mem_cons_self ..)).compensate work (by simp [hwork])
      obtain ⟨⟨e, t⟩, hnow⟩ := Option.isSome_iff_exists.1 (hprompt (env.view (board, s.1)))
      obtain ⟨w, hboard, -⟩ := Environment.runNow_onBoard hcalm hnow
      obtain ⟨board', u', w', hrun, hextra, -⟩ :=
        ih { board with context := t.1 } (u.add step.name e) hrest (w, s.2)
      refine ⟨board', u', w', ?_, hextra, by simp⟩
      simp only [Environment.undo, hwork, Course.inOrder, hboard]
      exact hrun

/-- The end of a run changes nothing that a reading sees, unless it undoes steps. -/
theorem conclude_inOrder (hcalm : env.Calm) (d : Definition C H) (begin : Nat)
    (board : Board C H X) (outcome : RunOutcome)
    (hcompleted : ∀ y ∈ board.ledger.completed, y.2.Prompt)
    (s : ω × List (Called (Board C H X × ω))) :
    ∃ board' result w, (env.conclude d begin board outcome).inOrder s =
        some (.done (board', result), w, s.2) ∧
      result.outcome = outcome ∧
      ((outcome.isFailed = true → env.options.compensation = false) →
        (result.context, env.memory w) = (board.context, env.memory s.1)) := by
  have hsteps : ∀ y ∈ (if outcome.isFailed && env.options.compensation then
      board.ledger.completed.reverse else []), y.2.Prompt := by
    intro y hy
    split at hy
    · exact hcompleted y (List.mem_reverse.1 hy)
    · simp at hy
  obtain ⟨board', u, w, hundo, -, hsame⟩ := undo_inOrder hcalm board {} _ hsteps s
  have hnone : (outcome.isFailed = true → env.options.compensation = false) →
      board' = board ∧ w = s.1 := fun h => hsame (by
    rw [if_neg]
    rw [Bool.and_eq_true]
    rintro ⟨hfailed, hundone⟩
    simp [h hfailed] at hundone)
  simp only [Environment.conclude, bind, Course.inOrder_bind, hundo]
  simp only [Course.read, Course.inOrder, id]
  split
  · refine ⟨board', _, _, rfl, rfl, fun h => ?_⟩
    obtain ⟨rfl, rfl⟩ := hnone h
    rw [Environment.announce_memory hcalm]
  · refine ⟨board', _, _, rfl, rfl, fun h => ?_⟩
    obtain ⟨rfl, rfl⟩ := hnone h
    rfl

/-- The walk of a compiled program from its beginning. -/
theorem traverse_inOrder (hcalm : env.Calm) {p : Program C H} {registry : Registry C H}
    {d : Definition C H} (hd : p.compile registry = .ok d) (hg : d.graph.Prompt)
    (hvisits : d.graph.size ≤ env.options.maxNodeVisits) (context : C) (extra : X) (w : ω) :
    ∃ q e y report o, p.read registry env.options.retry (context, env.memory w) = some (q, e) ∧
      q.Seen env y ∧
      (env.traverse d .root).inOrder (({ context, extra }, w), []) = some (report, y) ∧
      report.crash? = none ∧ Environment.outcome d (some report) = some o ∧
      Concludes d.graph e o := by
  obtain ⟨hat, hsize⟩ := Program.layout_of_compile registry hd
  have hstart : Scene.Seen env (C := C) (H := H) { state := (context, env.memory w) }
      (({ context, extra }, w), []) := ⟨rfl, rfl, by simp⟩
  obtain ⟨q, e, y, hread, hq, -, -, hy⟩ := itemsFollow registry hcalm hg (Walker.main hcalm d.graph)
    p.items hat _ (env.options.maxNodeVisits + 1) [] [] _ hstart (by simpa [hsize] using hvisits)
    (by simp)
  cases e with
  | none =>
    obtain ⟨fuel, trace, -, hwalk⟩ := hy
    obtain ⟨report, hhalt, hdrained⟩ := (Walker.main hcalm d.graph).drained fuel trace y
    refine ⟨q, none, y, report, .completed, hread, hq, hwalk.trans hdrained, ?_, ?_, rfl⟩
    · rw [Report.crash?, hhalt]
    · rw [Environment.outcome, hhalt]
  | some e =>
    obtain ⟨node, turn, report, hturn, hends, hwalk⟩ := hy
    cases e with
    | suspended s signal limit =>
      obtain ⟨hs, rfl⟩ := hturn
      obtain ⟨pending, hhalt⟩ := hends
      refine ⟨q, _, y, report, _, hread, hq, hwalk, ?_, ?_, node, pending, hs, rfl⟩
      · rw [Report.crash?, hhalt]
      · rw [Environment.outcome, hhalt]
    | failed | stranded | undecided =>
      obtain ⟨f, hf, rfl⟩ := hturn
      have hhalt : report.halt = .failed f := hends
      refine ⟨q, _, y, report, .failed f, hread, hq, hwalk, ?_, ?_, f, hf, rfl⟩
      · rw [Report.crash?, hhalt]
      · rw [Environment.outcome, hhalt]

/-- A run of a compiled program from its root, with branches in order, does the steps that a direct
reading of the program does, in the same order and on the same states, and ends as the reading does.
What it leaves is what the reading leaves, unless the steps of a failed run are undone. -/
theorem run_agrees_with_read (hcalm : env.Calm) {p : Program C H} {registry : Registry C H}
    {d : Definition C H} (hd : p.compile registry = .ok d) (hg : d.graph.Prompt)
    (hlimit : d.limit = none) (hvisits : d.graph.size ≤ env.options.maxNodeVisits)
    (context : C) (extra : X) (w : ω) :
    ∃ q e extra' result w' calls,
      p.read registry env.options.retry (context, env.memory w) = some (q, e) ∧
      (env.run d .root context extra).inOrder (w, []) =
        some (.done (extra', some result), w', calls) ∧
      Course.Steps (env.run d .root context extra, w) (.done (extra', some result), w') ∧
      calls.map (fun c => (c.work, env.view c.on)) =
        q.done.map (fun (s, y) => (env.onBoard s.execute, y)) ∧
      Concludes d.graph e result.outcome ∧
      ((result.outcome.isFailed = true → env.options.compensation = false) →
        (result.context, env.memory w') = q.state) := by
  have hstart := Environment.announce_memory hcalm (.runStarted d.id) w
  obtain ⟨q, e, y, report, o, hread, hq, hwalk, hcrash, ho, hends⟩ :=
    traverse_inOrder hcalm hd hg hvisits context extra (env.announce (.runStarted d.id) w)
  obtain ⟨board, result, w', hconclude, hresult, hleft⟩ :=
    conclude_inOrder hcalm d (env.instant w) y.1.1 o hq.prompt (y.1.2, y.2)
  have hrun : (env.run d .root context extra).inOrder (w, []) =
      some (.done (board.extra, some result), w', y.2) := by
    simp only [Environment.run, bind, Course.read, Course.modify, Course.bind, Course.inOrder,
      hlimit, hwalk, Option.bind_some, hcrash, ho, Course.inOrder_bind, hconclude, id]
    rfl
  exact ⟨q, e, board.extra, result, w', y.2, hstart ▸ hread, hrun, Course.steps_of_inOrder _ hrun,
    hq.done, hresult ▸ hends, fun h => (hleft (hresult ▸ h)).trans hq.state⟩

end

/-- A step that adds a digit to a number. -/
def digit (n : Nat) : Step Nat Unit where
  name := "digit"
  execute := .act (fun (c, h) => (10 * c + n, h)) fun _ => .done .success

/-- A step that waits for an answer. -/
def question : Step Nat Unit where
  name := "question"
  execute := .done (.suspend "answer")
  maySuspend := true

theorem digit_prompt (n : Nat) : (digit n).Prompt := ⟨fun _ => rfl, by simp [digit]⟩

theorem question_prompt : question.Prompt := ⟨fun _ => rfl, by simp [question]⟩

/-- Every kind of block, with a step near the end that waits. -/
def digits : Program Nat Unit where
  id := "digits"
  version := "1.0.0"
  calls := [
    .start (digit 1),
    .append (.choice (fun c => .ok (c < 5)) [
      .whenTrue [.parallel [.single (digit 2), .chain [.step (digit 3), .step (digit 4)]]],
      .whenFalse [.delay 5]]),
    .append (.sequence [.step (digit 5),
      .choice (fun _ => .ok false) [.whenTrue [.step (digit 9)]], .step (digit 6)]),
    .append (.step question), .append (.step (digit 7))]

theorem run_agrees_with_read_digits : ∃ d, digits.compile {} = .ok d ∧
    (Environment.still Nat Unit).Calm ∧ d.graph.Prompt ∧ d.limit = none ∧
    d.graph.size ≤ (Environment.still Nat Unit).options.maxNodeVisits ∧
    ∃ result calls, ((Environment.still Nat Unit).run d .root 0 ()).inOrder ((), []) =
        some (.done ((), some result), (), calls) ∧
      calls.map (fun c => c.on.1.context) = [0, 1, 12, 123, 1234, 12345, 123456] ∧
      (∃ node pending, result.outcome = .suspended ⟨"answer", none, node, pending⟩) ∧
      result.context = 123456 := by
  have hcalm := Environment.still_calm Nat Unit
  obtain ⟨d, hd, hsteps, hlimit, hsize⟩ : ∃ d, digits.compile {} = .ok d ∧
      d.graph.steps.map (·.2) = [digit 1, digit 2, digit 3, digit 4, digit 5, digit 9, digit 6,
        question, digit 7] ∧ d.limit = none ∧
      d.graph.size ≤ (Environment.still Nat Unit).options.maxNodeVisits :=
    ⟨_, rfl, rfl, rfl, by decide⟩
  have hg : d.graph.Prompt := fun y hy => by
    have hmem := hsteps ▸ List.mem_map_of_mem hy
    simp only [List.mem_cons, List.not_mem_nil, or_false] at hmem
    rcases hmem with h | h | h | h | h | h | h | h | h <;> rw [h]
    case inr.inr.inr.inr.inr.inr.inr.inl => exact question_prompt
    all_goals exact digit_prompt _
  obtain ⟨q, e, _, result, _, calls, hread, hrun, -, hcalls, hends, hleft⟩ :=
    run_agrees_with_read hcalm hd hg hlimit hsize 0 () ()
  obtain ⟨rfl, rfl⟩ : _ = q ∧ _ = e := Prod.mk.inj (Option.some.inj hread)
  obtain ⟨node, pending, -, houtcome⟩ := hends
  refine ⟨d, hd, hcalm, hg, hlimit, hsize, result, calls, hrun, ?_, ⟨node, pending, houtcome⟩, ?_⟩
  · have hstates := congrArg (List.map fun c => c.2.1) hcalls
    rw [List.map_map] at hstates
    exact hstates
  · exact congrArg Prod.fst (hleft (by simp [houtcome, RunOutcome.isFailed]))

end DurableWorkflow

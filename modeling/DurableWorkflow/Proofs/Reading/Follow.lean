import DurableWorkflow.Proofs.Reading.Layout
import DurableWorkflow.Proofs.Run.Calm

/-!
# Walks follow readings

A walk of a graph in which a chain lies does with it what a direct reading of the chain does, and
then goes on where the chain leads. The nodes ahead of the chain are the rest of the walk's stack,
whatever they are, and the induction on the program is for all of them at once. Each node of the
chain is visited at most once, which keeps the walk within its limit.

The main walk and that of a branch differ only in their books, so what they share is a `Walker`.
-/

namespace DurableWorkflow

variable {C H X ω : Type}

def Graph.HasStep (g : Graph C H) (node : NodeId) (s : Step C H) : Prop :=
  ∃ next, g.get? node = some ⟨.step s, next⟩

theorem Graph.HasStep.mem_steps {g : Graph C H} {node : NodeId} {s : Step C H}
    (h : g.HasStep node s) : (node, s) ∈ g.steps :=
  let ⟨_, h⟩ := h
  g.mem_steps h rfl

/-- No step of the graph ever waits. -/
def Graph.Prompt (g : Graph C H) : Prop := ∀ y ∈ g.steps, y.2.Prompt

theorem Graph.Prompt.step {g : Graph C H} (hg : g.Prompt) {node : NodeId} {s : Step C H}
    {next : Option NodeId} (h : g.get? node = some ⟨.step s, next⟩) : s.Prompt :=
  hg _ (Graph.HasStep.mem_steps ⟨next, h⟩)

/-- The failure that a run reports where a reading ends like this. -/
def Ending.Fails (g : Graph C H) : Ending C H → Failure → Prop
  | .failed s error attempts, f =>
    ∃ node, g.HasStep node s ∧ f = ⟨some s.name, some node, attempts, error.message⟩
  | .stranded s signal, f => ∃ node, g.HasStep node s ∧ f = g.strandedFailure node signal
  | .undecided m, f =>
    ∃ node, f = Failure.ofEngine "conditional" node ("conditional predicate panicked: " ++ m)
  | .suspended .., _ => False

/-- The turn that a walk takes at `node` where a reading ends like this. -/
def Ending.Turns (g : Graph C H) (node : NodeId) : Ending C H → Turn → Prop
  | .suspended s signal limit, t => g.HasStep node s ∧ t = .suspended signal limit
  | e, t => ∃ f, e.Fails g f ∧ t = .failed f

variable {env : Environment C H X ω} {g : Graph C H}

theorem Ending.Fails.turns {e : Ending C H} {f : Failure} (h : e.Fails g f) (node : NodeId) :
    e.Turns g node (.failed f) := by
  cases e with
  | suspended => exact h.elim
  | failed | stranded | undecided => exact ⟨f, h, rfl⟩

/-! ### Visits -/

namespace Environment

/-- A visit to a node that is there comes to what its kind comes to. -/
theorem visit_gives (hcalm : env.Calm) {branch : NodeId → Walk (Board C H X × ω) Report}
    {node : NodeId} {n : Node C H} {v : Visited} {x y : Stand C H X ω}
    (hn : g.get? node = some n) (hlimit : x.1.1.visits + 1 ≤ env.options.maxNodeVisits)
    (h : (env.enter branch node n).Gives
      (({ x.1.1 with visits := x.1.1.visits + 1 }, x.1.2), x.2) v y) :
    (env.visit g branch node).Gives x v y := by
  unfold visit
  refine (countVisit_gives hcalm hlimit).bind ?_
  simp only [hn]
  exact h

end Environment

theorem Scene.Seen.count {p : Scene C H} {x : Stand C H X ω} (hp : p.Seen env x) :
    p.Seen env (({ x.1.1 with visits := x.1.1.visits + 1 }, x.1.2), x.2) :=
  hp.congr rfl rfl

/-! ### Walkers -/

/-- A way to walk a graph. `Ends` says what is reported of a turn at which the walk ends. -/
structure Walker (env : Environment C H X ω) (g : Graph C H) where
  go : Nat → List NodeId → List StepTrace → Walk (Board C H X × ω) Report
  Ends : NodeId → Turn → Report → Prop
  drained : ∀ fuel trace x, ∃ report, report.halt = .drained ∧
    (go fuel [] trace).inOrder x = some (report, x)
  onward : ∀ {fuel node p x v y next} ahead trace,
    (env.visit g (fun child => env.walkBranch g fuel [child] []) node).Gives x v y →
    v.turn = .onward next → Scene.Seen env p y →
    ∃ trace' z, p.Seen env z ∧ z.1.1.visits = y.1.1.visits ∧
      (go (fuel + 1) (node :: ahead) trace).inOrder x = (go fuel (next ++ ahead) trace').inOrder z
  ends : ∀ {fuel node p x v y} ahead trace,
    (env.visit g (fun child => env.walkBranch g fuel [child] []) node).Gives x v y →
    (∀ next, v.turn ≠ .onward next) → Scene.Seen env p y →
    ∃ report z, p.Seen env z ∧ z.1.1.visits = y.1.1.visits ∧ Ends node v.turn report ∧
      (go (fuel + 1) (node :: ahead) trace).inOrder x = some (report, z)

/-- The walk of a branch; a turn that waits for a signal is a failure of the branch. -/
def Walker.branch (env : Environment C H X ω) (g : Graph C H) : Walker env g where
  go := env.walkBranch g
  Ends node
    | .onward _, _ => False
    | .failed f, r => r.halt = .failed f
    | .suspended signal _, r => r.halt = .failed (g.strandedFailure node signal)
  drained fuel trace x := ⟨⟨trace, .drained⟩, rfl, by cases fuel <;> rfl⟩
  onward {fuel node p x v y next} ahead trace h hturn hp := by
    refine ⟨trace ++ v.trace, y, hp, rfl, ?_⟩
    rw [Environment.walkBranch, h]
    simp only [hturn]
  ends {fuel node p x v y} ahead trace h hturn hp := by
    rw [Environment.walkBranch, h]
    cases ht : v.turn with
    | onward next => exact absurd ht (hturn next)
    | failed f => exact ⟨_, y, hp, rfl, rfl, rfl⟩
    | suspended signal limit => exact ⟨_, y, hp, rfl, rfl, rfl⟩

/-- The main walk. -/
def Walker.main (hcalm : env.Calm) (g : Graph C H) : Walker env g where
  go fuel nodes _ := env.walkMain g fuel nodes
  Ends node
    | .onward _, _ => False
    | .failed f, r => r.halt = .failed f
    | .suspended signal limit, r => ∃ pending, r.halt = .suspended ⟨signal, limit, node, pending⟩
  drained fuel trace x := ⟨_, rfl, by cases fuel <;> rfl⟩
  onward {fuel node p x v y next} ahead trace h hturn hp := by
    obtain ⟨extra, w, hsave, hw⟩ := hcalm.save ⟨y.1.1.context, (next ++ ahead).reverse, v.trace⟩
      y.1.1.extra y.1.2
    refine ⟨[], (({ y.1.1 with extra, ledger.trace := y.1.1.ledger.trace ++ v.trace }, w), y.2),
      hp.congr (by simp only [Environment.view, hw]) rfl, rfl, ?_⟩
    rw [Environment.walkMain, h]
    simp only [Environment.pass, Walk.inOrder, hturn, Environment.checkpoint, Piece.update, hsave]
  ends {fuel node p x v y} ahead trace h hturn hp := by
    rw [Environment.walkMain, h]
    simp only [Environment.pass, Walk.inOrder]
    have hbooks : p.Seen env
        (({ y.1.1 with ledger.trace := y.1.1.ledger.trace ++ v.trace }, y.1.2), y.2) :=
      hp.congr rfl rfl
    cases ht : v.turn with
    | onward next => exact absurd ht (hturn next)
    | failed f => exact ⟨_, _, hbooks, rfl, rfl, rfl⟩
    | suspended signal limit =>
      refine ⟨_, _, hbooks.congr (y := (_, env.announce (.runSuspended node signal) y.1.2)) ?_ rfl,
        rfl, ⟨_, rfl⟩, rfl⟩
      simp only [Environment.view, Environment.announce_memory hcalm]

/-! ### Following -/

namespace Walker

/-- A walk goes on with the nodes `next` in the state `y`, or it has ended there as `e` says. Fuel
for all visits that are still admitted is left. -/
def Reaches (W : Walker env g) (walked : Option (Report × Stand C H X ω)) (next : List NodeId)
    (y : Stand C H X ω) : Option (Ending C H) → Prop
  | none => ∃ fuel trace, env.options.maxNodeVisits < fuel + y.1.1.visits ∧
      walked = (W.go fuel next trace).inOrder y
  | some e => ∃ node turn report, e.Turns g node turn ∧ W.Ends node turn report ∧
      walked = some (report, y)

/-- With at most `budget` visits a walk passes `nodes` as the reading `told` of the scene `p` says,
and goes on with `next`, whatever is ahead. -/
def Follows (W : Walker env g) (budget : Nat) (nodes next : List NodeId) (p : Scene C H)
    (told : Option (Told C H)) : Prop :=
  ∀ fuel ahead trace x, p.Seen env x → x.1.1.visits + budget ≤ env.options.maxNodeVisits →
    env.options.maxNodeVisits < fuel + x.1.1.visits →
    ∃ q e y, told = some (q, e) ∧ q.Seen env y ∧ x.1.1.visits ≤ y.1.1.visits ∧
      y.1.1.visits ≤ x.1.1.visits + budget ∧
      W.Reaches ((W.go fuel (nodes ++ ahead) trace).inOrder x) (next ++ ahead) y e

namespace Follows

variable {W : Walker env g} {a b : Nat} {nodes mid next : List NodeId} {p : Scene C H}
  {told : Option (Told C H)}

theorem refl : W.Follows 0 nodes nodes p (some (p, none)) := fun fuel _ trace x hp _ hfuel =>
  ⟨p, none, x, rfl, hp, Nat.le_refl _, Nat.le_refl _, fuel, trace, hfuel, rfl⟩

theorem mono (h : W.Follows a nodes next p told) (hab : a ≤ b) : W.Follows b nodes next p told := by
  intro fuel ahead trace x hp hbudget hfuel
  obtain ⟨q, e, y, htold, hq, hlo, hhi, hy⟩ := h fuel ahead trace x hp (by omega) hfuel
  exact ⟨q, e, y, htold, hq, hlo, by omega, hy⟩

/-- What is ahead of the first nodes may be named. -/
theorem frame (h : W.Follows a nodes next p told) (rest : List NodeId) :
    W.Follows a (nodes ++ rest) (next ++ rest) p told := by
  intro fuel ahead trace x hp hbudget hfuel
  rw [List.append_assoc, List.append_assoc]
  exact h fuel (rest ++ ahead) trace x hp hbudget hfuel

theorem trans {later : Scene C H → Option (Told C H)} (h : W.Follows a nodes mid p told)
    (h' : ∀ q, W.Follows b mid next q (later q)) :
    W.Follows (a + b) nodes next p (do
      let (q, e) ← told
      match e with
      | none => later q
      | some e => return (q, some e)) := by
  intro fuel ahead trace x hp hbudget hfuel
  obtain ⟨q, e, y, rfl, hq, hlo, hhi, hy⟩ := h fuel ahead trace x hp (by omega) hfuel
  cases e with
  | some e => exact ⟨q, some e, y, rfl, hq, hlo, by omega, hy⟩
  | none =>
    obtain ⟨fuel', trace', hfuel', hwalk⟩ := hy
    obtain ⟨q', e', z, hlater, hq', hlo', hhi', hz⟩ :=
      h' q fuel' ahead trace' y hq (by omega) hfuel'
    exact ⟨q', e', z, hlater, hq', by omega, by omega, hwalk ▸ hz⟩

end Follows

/-- Passing one node: the visit that a walk with enough fuel makes comes to `v`, and `v` is what the
reading says. -/
theorem follows_visit (W : Walker env g) (budget : Nat) {node : NodeId} {next : List NodeId}
    {p : Scene C H} {told : Option (Told C H)}
    (h : ∀ fuel x, p.Seen env x → x.1.1.visits + (1 + budget) ≤ env.options.maxNodeVisits →
      env.options.maxNodeVisits < fuel + 1 + x.1.1.visits →
      ∃ q e v y, told = some (q, e) ∧
        (env.visit g (fun child => env.walkBranch g fuel [child] []) node).Gives x v y ∧
        q.Seen env y ∧ x.1.1.visits + 1 ≤ y.1.1.visits ∧
        y.1.1.visits ≤ x.1.1.visits + (1 + budget) ∧
        match e with
        | none => v.turn = .onward next
        | some e => e.Turns g node v.turn) :
    W.Follows (1 + budget) [node] next p told := by
  intro fuel ahead trace x hp hbudget hfuel
  obtain ⟨fuel, rfl⟩ : ∃ n, fuel = n + 1 := ⟨fuel - 1, by omega⟩
  obtain ⟨q, e, v, y, htold, hgives, hq, hlo, hhi, hturn⟩ := h fuel x hp hbudget hfuel
  cases e with
  | none =>
    obtain ⟨trace', z, hz, hsame, hwalk⟩ := W.onward ahead trace hgives hturn hq
    exact ⟨q, none, z, htold, hz, by omega, by omega, fuel, trace', by omega, hwalk⟩
  | some e =>
    have hends : ∀ next, v.turn ≠ .onward next := by
      intro next hnext
      cases e <;> simp [Ending.Turns, hnext] at hturn
    obtain ⟨report, z, hz, hsame, hreport, hwalk⟩ := W.ends ahead trace hgives hends hq
    exact ⟨q, some e, z, htold, hz, by omega, by omega, node, v.turn, report, hturn, hreport, hwalk⟩

end Walker

end DurableWorkflow

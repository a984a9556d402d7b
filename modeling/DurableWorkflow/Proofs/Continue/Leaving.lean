import DurableWorkflow.Proofs.Continue.Leads
import DurableWorkflow.Proofs.Graph.Tract

/-!
# A step replaced

A definition in which one step succeeds at once and leaves a given context. Its graph has the same
shape, and where that step does not lie in a branch of a parallel block all other nodes do what they
did before (`visits_leaving_of_ne`).
-/

namespace DurableWorkflow

variable {C H X ω κ : Type}

/-- A step that succeeds at once and leaves this context, in the place of the given one. -/
def Step.leaving (context : C) (s : Step C H) : Step C H :=
  { s with execute := .act (fun x => (context, x.2)) fun _ => .done .success, limit := none }

def Node.leaving (context : C) (n : Node C H) : Node C H :=
  match n.kind with
  | .step s => { n with kind := .step (s.leaving context) }
  | _ => n

/-- The same graph, but for the step at one node. -/
def Graph.leaving (g : Graph C H) (node : NodeId) (context : C) : Graph C H :=
  ⟨g.nodes.modify node (·.leaving context)⟩

/-- The same definition, but for the step at one node. -/
def Definition.leaving (d : Definition C H) (node : NodeId) (context : C) : Definition C H :=
  { d with graph := d.graph.leaving node context }

/-! ### The shape of the graph -/

theorem Node.leaving_of_step {n : Node C H} {s : Step C H} (h : n.kind = .step s) (context : C) :
    n.leaving context = { n with kind := .step (s.leaving context) } := by
  unfold leaving
  rw [h]

theorem Node.like_leaving (n : Node C H) (context : C) : n.Like (n.leaving context) := by
  obtain ⟨kind, next⟩ := n
  cases kind with
  | step s => exact ⟨rfl, rfl, rfl, by simp [leaving], by simp [leaving, step?, Step.leaving]⟩
  | sequence | conditional | parallel | delay =>
    exact ⟨rfl, rfl, rfl, fun _ h => h, fun s hs => ⟨s, hs, rfl⟩⟩

namespace Graph

variable {g g' : Graph C H} {x y : Nat} {n : Node C H}

theorem get?_leaving (hn : g.get? x = some n) (context : C) :
    (g.leaving x context).get? x = some (n.leaving context) := by
  have hn : g.nodes[x]? = some n := hn
  simp [leaving, get?, Array.getElem?_modify, hn]

theorem get?_leaving_of_ne (h : y ≠ x) (context : C) :
    (g.leaving x context).get? y = g.get? y := by
  simp [leaving, get?, Array.getElem?_modify, h.symm]

theorem like_leaving (g : Graph C H) (x : NodeId) (context : C) : g.Like (g.leaving x context) where
  size := by simp [size, leaving]
  node y n' hn' := by
    by_cases hy : y = x
    · subst hy
      cases hn : g.get? y with
      | none =>
        have hn : g.nodes[y]? = none := hn
        simp [leaving, get?, Array.getElem?_modify, hn] at hn'
      | some n =>
        rw [get?_leaving hn, Option.some.injEq] at hn'
        exact ⟨n, rfl, hn' ▸ n.like_leaving context⟩
    · rw [get?_leaving_of_ne hy] at hn'
      exact ⟨n', hn', rfl, rfl, rfl, fun _ h => h, fun s hs => ⟨s, hs, rfl⟩⟩

theorem Blind.leaving {key : Signal → κ} (h : g.Blind key) (x : NodeId) (context : C) :
    (g.leaving x context).Blind key := by
  intro y n' s' hn' hkind
  by_cases hy : y = x
  · subst hy
    obtain ⟨n, hn, -⟩ := (g.like_leaving y context).node y n' hn'
    rw [get?_leaving hn, Option.some.injEq] at hn'
    subst hn'
    unfold Node.leaving at hkind
    split at hkind
    · next s hs =>
      cases hkind
      refine ⟨.act (fun _ _ _ => rfl) fun _ _ _ => .done _, (h y n s hn hs).onSignal⟩
    · exact h y n s' hn hkind
  · rw [get?_leaving_of_ne hy] at hn'
    exact h y n' s' hn' hkind

theorem InParallel.link (h : g.InParallel x) (hn : g.get? x = some n) {m : Nat}
    (hm : m ∈ n.links) : g.InParallel m := by
  obtain ⟨p, k, children, c, hk, hkind, hc, hreaches⟩ := h
  exact ⟨p, k, children, c, hk, hkind, hc, hreaches.tail ⟨n, hn, hm⟩⟩

theorem InParallel.child {children : List Nat} (hn : g.get? x = some n)
    (hkind : n.kind = .parallel children) (hy : y ∈ children) : g.InParallel y :=
  ⟨x, n, children, y, hn, hkind, hy, .refl⟩

end Graph

/-! ### Where the graph is the same -/

namespace Environment

variable {env : Environment C H X ω} {g g' : Graph C H} {x : Nat} {n : Node C H}
  {branch branch' : NodeId → Walk (Board C H X × ω) Report}

theorem enter_congr (h : ∀ children, n.kind = .parallel children → ∀ c ∈ children,
    branch c = branch' c) : env.enter branch x n = env.enter branch' x n := by
  unfold enter
  cases hkind : n.kind with
  | step | sequence | conditional | delay => rfl
  | parallel children => simp only [runParallel, List.map_congr_left (h children hkind)]

theorem visit_congr (hget : g'.get? x = g.get? x)
    (h : ∀ n children, g.get? x = some n → n.kind = .parallel children → ∀ c ∈ children,
      branch c = branch' c) : env.visit g branch x = env.visit g' branch' x := by
  unfold visit
  rw [hget]
  cases hn : g.get? x with
  | none => rfl
  | some n => simp only [enter_congr (h n · hn)]

/-- Branches do not leave the parts of the graph that lie in parallel blocks. -/
theorem walkBranch_congr (hsame : ∀ y, g.InParallel y → g'.get? y = g.get? y) (fuel : Nat)
    (nodes : List NodeId) (trace : List StepTrace) (hnodes : ∀ y ∈ nodes, g.InParallel y) :
    env.walkBranch g fuel nodes trace = env.walkBranch g' fuel nodes trace := by
  induction fuel generalizing nodes trace with
  | zero => cases nodes <;> rfl
  | succ fuel ih =>
    cases nodes with
    | nil => rfl
    | cons y l =>
      have hy := hnodes y (List.mem_cons_self ..)
      have hvisit : env.visit g (fun child => env.walkBranch g fuel [child] []) y =
          env.visit g' (fun child => env.walkBranch g' fuel [child] []) y :=
        visit_congr (hsame y hy) fun n children hn hkind c hc =>
          ih [c] [] fun z hz => List.mem_singleton.1 hz ▸ .child hn hkind hc
      rw [walkBranch, walkBranch, ← hvisit]
      -- What follows is the same only for what can come of the node, so it does not rewrite.
      refine visit_hands env g _ y _ _ fun v hfits => ?_
      cases hturn : v.turn with
      | onward nodes =>
        obtain ⟨n, hn, honward⟩ := hfits.onward nodes hturn
        refine ih (nodes ++ l) _ fun z hz => ?_
        rcases List.mem_append.1 hz with hz | hz
        · exact hy.link hn (honward.links hz)
        · exact hnodes z (List.mem_cons_of_mem _ hz)
      | failed f => rfl
      | suspended signal limit => simp only [Graph.strandedFailure, hsame y hy]

theorem handle_congr (hsame : ∀ y, g.InParallel y → g'.get? y = g.get? y) (hget : g'.get? x = g.get? x)
    (fuel : Nat) (signal : Option Signal) :
    env.handle g fuel x signal = env.handle g' fuel x signal := by
  cases signal with
  | none =>
    exact visit_congr hget fun n children hn hkind c hc =>
      walkBranch_congr hsame fuel [c] [] fun z hz => List.mem_singleton.1 hz ▸ .child hn hkind hc
  | some signal =>
    show env.deliver g x signal = env.deliver g' x signal
    unfold deliver
    rw [hget]

end Environment

/-- All other nodes do what they did before. -/
theorem visits_leaving_of_ne {drift : Board C H X × ω → Board C H X × ω → Prop}
    {T : Schedule (Board C H X × ω) Report} {o : RunOptions} {g : Graph C H} {key : Signal → κ}
    {x y : Nat} (hx : ¬g.InParallel x) (hy : y ≠ x) (context : C) :
    visits drift T o g key y = visits drift T o (g.leaving x context) key y := by
  have hsame (z : Nat) (hz : g.InParallel z) : (g.leaving x context).get? z = g.get? z := by
    refine Graph.get?_leaving_of_ne ?_ context
    rintro rfl
    exact hx hz
  funext k before v after
  unfold visits
  have hhandle (env : Environment C H X ω) (fuel : Nat) (signal : Option Signal) :=
    env.handle_congr hsame (Graph.get?_leaving_of_ne hy context) fuel signal
  simp only [hhandle]

/-!
## Steps that succeed

A step that answers a signal with a success leaves the same, whenever the signal is delivered
(`visits_answer`), as the step does that is put in its place (`visits_leaving`): one entry, and the
context.
-/

/-- Given this signal on this context the step succeeds, and leaves that context. -/
def Step.Answers (s : Step C H) (signal : Signal) (context context' : C) : Prop :=
  ∃ memory memory' r, Work.Steps (s.onSignal signal, context, memory) (.done r, context', memory') ∧
    r.outcome = .success

/-- The entry of a step that has succeeded at once. -/
def Step.entry (s : Step C H) (node : NodeId) : Gist := (s.name, node, .succeeded, 1)

namespace Environment

variable {env : Environment C H X ω} {D : ω → ω → Prop} {T : Schedule (Board C H X × ω) Report}
  {o : RunOptions} {g : Graph C H} {key : Signal → κ} {x : NodeId} {n : Node C H} {s : Step C H}
  {context context' : C} {b : Board C H X × ω} {signal : Signal}

/-- On the board work ends as it does by itself, if it depends on the context alone. -/
theorem onBoard_ends (env : Environment C H X ω) (hD : ∀ w, D w w)
    {work : Work (C × H) StepResult} {memory memory' : H} {r : StepResult}
    (h : Work.Steps (work, context, memory) (.done r, context', memory'))
    {work' : Work (C × H) StepResult} (hagree : work.Agree (fun x y => x.1 = y.1) work')
    (hb : b.1.context = context) (i : Nat) : ∃ t,
      Work.Ends (Beside D) (fun _ => false) i (env.onBoard work', b) (.finished r, t) ∧
        t.1.context = context' := by
  generalize hx : (work, context, memory) = x, hy : (Work.done r, context', memory') = y at h
  -- The steps are those of `work`; on the board `work'` keeps up with them, on its own memory.
  induction h using Relation.ReflTransGen.head_induction_on
    generalizing work work' context memory b i with
  | refl =>
    cases hx.trans hy.symm
    cases hagree
    exact ⟨b, .ended ⟨rfl, hD b.2⟩ rfl, hb⟩
  | head hstep _ ih =>
    subst hx
    cases hstep with
    | act f rest =>
      cases hagree with
      | @act _ f' _ rest' hact hrest =>
        have hsame : context = b.1.context := hb.symm
        obtain ⟨t, hends, ht⟩ := ih (hrest _ (b.1.context, env.memory b.2) hsame)
          (b := ({ b.1 with context := (f' (b.1.context, env.memory b.2)).1 },
            env.setMemory (f' (b.1.context, env.memory b.2)).2 b.2))
          (hact _ (b.1.context, env.memory b.2) hsame).symm (i + 1) rfl
        exact ⟨t, .next ⟨rfl, hD b.2⟩ rfl hends, ht⟩
    | sleep d =>
      cases hagree with
      | sleep _ hrest =>
        obtain ⟨t, hends, ht⟩ := ih hrest hb (i + 1) rfl
        exact ⟨t, .next ⟨rfl, hD b.2⟩ rfl hends, ht⟩
    | awaitCancel =>
      cases hagree with
      | awaitCancel hrest =>
        obtain ⟨t, hends, ht⟩ := ih hrest hb (i + 1) rfl
        exact ⟨t, .next ⟨rfl, hD b.2⟩ rfl hends, ht⟩

theorem settle_reaches (env : Environment C H X ω) (hD : ∀ w, D w w) (s : Step C H)
    (next : Option NodeId) (startedAt : Timestamp) {r : StepResult} (hr : r.outcome = .success)
    (b : Board C H X × ω) : ∃ v t,
      (env.settle x s next startedAt r 1).Reaches (Beside D) T (Report.Fair o) b v t ∧
        v.gist = ([s.entry x], .onward next.toList) ∧ t.1.context = b.1.context := by
  have hrefl (b : Board C H X × ω) : Beside D b b := ⟨rfl, hD b.2⟩
  have htrack (b : Board C H X × ω) : ∃ t, (env.trackContextSize).Reaches (Beside D) T
      (Report.Fair o) b () t ∧ t.1.context = b.1.context := by
    unfold trackContextSize
    split
    · refine ⟨_, .modify (hrefl b) _, ?_⟩
      simp only
      split <;> rfl
    · exact ⟨b, .pure () b, rfl⟩
  choose track htrack hcontext using htrack
  unfold settle
  simp only [hr]
  refine ⟨_, _, .bind (.read (hrefl b) _) (.bind (.modify (hrefl _) _) (.bind (.modify (hrefl _) _)
    (.bind (htrack _) (.pure _ _)))), rfl, ?_⟩
  exact hcontext _

end Environment

variable {env : Environment C H X ω} {D : ω → ω → Prop} {T : Schedule (Board C H X × ω) Report}
  {o : RunOptions} {g : Graph C H} {key : Signal → κ} {x : NodeId} {n : Node C H} {s : Step C H}
  {context context' : C} {signal : Signal}

/-- A signal that is answered with a success. -/
theorem visits_answer (hD : ∀ w, D w w) (henv : env.options = o) (extra : X) (w : ω)
    (hg : g.Blind key) (hn : g.get? x = some n) (hkind : n.kind = .step s)
    (h : s.Answers signal context context') :
    visits (Beside D) T o g key x (some (key signal)) context ([s.entry x], .onward n.next.toList)
      context' := by
  obtain ⟨memory, memory', r, hsteps, hr⟩ := h
  obtain ⟨t, hends, rfl⟩ := env.onBoard_ends (b := (⟨context, extra, {}, 0⟩, w)) hD hsteps
    ((hg x n s hn hkind).onSignal signal signal rfl) rfl 0
  obtain ⟨v, t', hsettle, hgist, hcontext⟩ :=
    env.settle_reaches (x := x) (T := T) (o := o) hD s n.next (env.wall w) hr t
  have hdeliver : (env.handle g 0 x (some signal)).Reaches (Beside D) T (Report.Fair o)
      (⟨context, extra, {}, 0⟩, w) v t' := by
    show (env.deliver g x signal).Reaches _ _ _ _ _ _
    unfold Environment.deliver
    simp only [hn, Node.step?, hkind]
    exact .bind (.read ⟨rfl, hD w⟩ _) (.bind (.call hends) hsettle)
  have hturn : v.turn = .onward n.next.toList := congrArg Prod.snd hgist
  have hvisits : visits (Beside D) T o g key x (some (key signal)) context v.gist t'.1.context :=
    visits_of_reaches (fun b => ⟨rfl, hD b.2⟩) henv hdeliver (Visited.not_refused (by simp [hturn]))
  rwa [hgist, hcontext] at hvisits

namespace Environment

theorem attempts_reaches (hD : ∀ w, D w w) (henv : env.Unhindered o) (x : NodeId) (s : Step C H)
    (context : C) (policy : RetryPolicy) (spare : Nat) (b : Board C H X × ω) : ∃ t,
      (env.attempts x (s.leaving context) policy spare 1).Reaches (Beside D) T (Report.Fair o) b
        (.success, 1) t ∧ t.1.context = context := by
  have hrefl (b : Board C H X × ω) : Beside D b b := ⟨rfl, hD b.2⟩
  have hattempt : (env.attempt (s.leaving context)).Reaches (Beside D) T (Report.Fair o) b .success
      ({ b.1 with context }, env.setMemory (env.memory b.2) b.2) := by
    refine .bind (.call (.next (hrefl b) rfl (.ended (hrefl _) rfl))) (.bind (.read (hrefl _) _) ?_)
    simp only [henv.cancelled, Bool.false_eq_true, if_false]
    exact .pure _ _
  refine ⟨({ b.1 with context }, env.setMemory (env.memory b.2) b.2), ?_, rfl⟩
  cases spare with
  | zero => exact .bind hattempt (.bind (.pure _ _) (.pure _ _))
  | succ spare => exact .bind hattempt (.bind (.pure false _) (.pure _ _))

end Environment

theorem visits_leaving (hD : ∀ w, D w w) (henv : env.Unhindered o) (hvisits : 0 < o.maxNodeVisits)
    (extra : X) (w : ω) (hn : g.get? x = some n) (hkind : n.kind = .step s) (before : C) :
    visits (Beside D) T o (g.leaving x context') key x none before
      ([s.entry x], .onward n.next.toList) context' := by
  have hrefl (b : Board C H X × ω) : Beside D b b := ⟨rfl, hD b.2⟩
  have hmost : ¬0 + 1 > env.options.maxNodeVisits := by
    rw [henv.options]
    omega
  have hcount : env.countVisit (⟨before, extra, {}, 0⟩, w) =
      (.admitted, ⟨before, extra, {}, 1⟩, w) := by
    simp [Environment.countVisit, henv.cancelled, hmost]
  let policy := (s.leaving context').retryPolicy.getD env.options.retry
  obtain ⟨t, hattempts, rfl⟩ := Environment.attempts_reaches (T := T) hD henv x s context' policy
    (policy.maxAttempts - 1) (⟨before, extra, {}, 1⟩, w)
  obtain ⟨v, t', hsettle, hgist, hcontext⟩ := env.settle_reaches (x := x) (T := T) (o := o) hD
    (s.leaving t.1.context) n.next (env.wall w) (r := .success) rfl t
  have hvisit : (env.handle (g.leaving x t.1.context) 0 x none).Reaches (Beside D) T
      (Report.Fair o) (⟨before, extra, {}, 0⟩, w) v t' := by
    refine .bind (.update (hrefl _) _) ?_
    rw [hcount]
    simp only [Graph.get?_leaving hn, Node.leaving_of_step hkind, Environment.enter]
    exact .bind (.read (hrefl _) _) (.bind hattempts hsettle)
  have hturn : v.turn = .onward n.next.toList := congrArg Prod.snd hgist
  have hdone : visits (Beside D) T o (g.leaving x t.1.context) key x none before v.gist
      t'.1.context :=
    visits_of_reaches (fun b => ⟨rfl, hD b.2⟩) henv.options hvisit
      (Visited.not_refused (by simp [hturn]))
  rwa [hgist, hcontext] at hdone

end DurableWorkflow

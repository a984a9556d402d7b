import DurableWorkflow.Proofs.Run.Keeps
import DurableWorkflow.Proofs.Walk.Schedule
import DurableWorkflow.Proofs.Walk.Upholds

/-!
# Assertions about contexts

What holds of the context of a run where it stands: with these nodes ahead, with a signal on its way
to a node, where it waits, and all the way (`Assertions`). They fit a graph if every step leads from
the assertion in front of it to the one behind it, whatever the steps remember, and so do choices and
blocks of single steps (`Assertions.Fits`). Then every checkpoint that a run saves is one of which the
assertion holds, and so is where the run ends (`traverse_upholds`).
-/

namespace DurableWorkflow

variable {C H X ω : Type}

/-! ### What a step does to the context -/

/-- What a step relies on, also when it is tried again, what holds when it has succeeded, and what
holds when it waits. -/
structure Contract (C : Type) where
  pre : C → Prop
  post : C → Prop
  waits : String → Option Nanos → C → Prop := fun _ _ _ => False

namespace Contract

variable (K : Contract C)

def Outcome : StepOutcome → C → Prop
  | .success, c => K.post c
  | .failure .., c => K.pre c
  | .suspended signal limit, c => K.waits signal limit c

def Ends : CallEnd → C → Prop
  | .finished r, c => K.Outcome r.outcome c
  | .crashed _, c | .timedOut, c => K.pre c
  | .cancelled, _ => True

/-- What the others may do to the context breaks nothing of the contract. -/
structure Lasts (R : C → C → Prop) : Prop where
  pre : ∀ c c', K.pre c → R c c' → K.pre c'
  post : ∀ c c', K.post c → R c c' → K.post c'
  waits : ∀ signal limit c c', K.waits signal limit c → R c c' → K.waits signal limit c'

variable {K}

theorem Lasts.outcome {R : C → C → Prop} (h : K.Lasts R) (o : StepOutcome) {c c' : C}
    (hc : K.Outcome o c) (hR : R c c') : K.Outcome o c' := by
  cases o with
  | success => exact h.post c c' hc hR
  | failure => exact h.pre c c' hc hR
  | suspended signal limit => exact h.waits signal limit c c' hc hR

theorem lasts_eq (K : Contract C) : K.Lasts Eq :=
  ⟨fun _ _ h he => he ▸ h, fun _ _ h he => he ▸ h, fun _ _ _ _ h he => he ▸ h⟩

end Contract

/-- Work keeps the contract: where the others may make an `R` of the context, each of its own actions
makes a `G` of it. -/
def Work.Meets (R G : C → C → Prop) (K : Contract C) (work : Work (C × H) StepResult) : Prop :=
  ∀ c h, K.pre c → work.Upholds (fun s t => R s.1 t.1) (fun s t => G s.1 t.1)
    (fun e t => K.Ends e t.1) (c, h)

/-! ### Assertions -/

structure Assertions (C : Type) where
  /-- With these nodes still to visit, the next one first. -/
  ahead : List NodeId → C → Prop
  /-- With a signal on its way to a node, and these nodes pending. -/
  told : NodeId → List NodeId → Signal → C → Prop
  /-- Where a run waits. -/
  waits : Suspension → C → Prop
  /-- All the way. -/
  live : C → Prop

namespace Assertions

variable (P : Assertions C)

/-- What a run does to the context leaves it as it has to be all the way. -/
def Spares (c c' : C) : Prop := P.live c → P.live c'

/-- Where flow goes on with these nodes, after these entries. A checkpoint with nothing ahead is not
one without any entries: that would be a run which has not begun. -/
def Onward (ahead : List NodeId) (nodes : List NodeId) (trace : List StepTrace) (c : C) : Prop :=
  P.ahead (nodes ++ ahead) c ∧ (nodes ++ ahead = [] → trace ≠ [])

/-- What a step at a node has to do with these nodes behind it. -/
def contract (pre : C → Prop) (node : NodeId) (next : Option NodeId) (ahead : List NodeId) :
    Contract C where
  pre := pre
  post := P.ahead (next.toList ++ ahead)
  waits signal limit := P.waits ⟨signal, limit, node, ahead.reverse⟩

/-- A branch that is a single step, from the context `c` on: among the others, which make an `R` of
the context, it comes to `post`. -/
def Branch (g : Graph C H) (R : C → C → Prop) (c : C) (child : NodeId) (post : C → Prop) : Prop :=
  ∃ s pre, g.get? child = some { kind := .step s } ∧ pre c ∧
    (⟨pre, post, fun _ _ _ => True⟩ : Contract C).Lasts R ∧
    s.execute.Meets R (fun c c' => P.Spares c c' ∧ R c c') ⟨pre, post, fun _ _ _ => True⟩

/-- Branches of single steps that start at these nodes, each with what it comes to, lead to `goal` from
the context `c` on. -/
structure Split (g : Graph C H) (c : C) (children : List NodeId) (goal : C → Prop)
    (R : C → C → Prop) (tasks : List (NodeId × (C → Prop))) : Prop where
  refl : ∀ c, R c c
  trans : ∀ a b c, R a b → R b c → R a c
  nodes : children = tasks.map (·.1)
  branches : ∀ x ∈ tasks, P.Branch g R c x.1 x.2
  any : tasks ≠ []
  goal : ∀ c', R c c' → (∀ x ∈ tasks, x.2 c') → goal c'

/-- From each node of the graph the assertions lead on. -/
structure Fits (g : Graph C H) : Prop where
  step : ∀ {node ahead n s}, g.get? node = some n → n.kind = .step s →
    s.execute.Meets Eq P.Spares (P.contract (P.ahead (node :: ahead)) node n.next ahead)
  choice : ∀ {node ahead n holds t e b c}, g.get? node = some n → n.kind = .conditional holds t e →
    P.ahead (node :: ahead) c → holds c = .ok b →
      P.Onward ahead ((if b then t else e).or n.next).toList [] c
  parallel : ∀ {node ahead n children c}, g.get? node = some n → n.kind = .parallel children →
    P.ahead (node :: ahead) c → ∃ R tasks, P.Split g c children (P.ahead (n.next.toList ++ ahead)) R tasks
  sequence : ∀ {node ahead n children c}, g.get? node = some n → n.kind = .sequence children →
    P.ahead (node :: ahead) c → P.Onward ahead (children ++ n.next.toList) [] c
  delay : ∀ {node ahead n d c}, g.get? node = some n → n.kind = .delay d →
    P.ahead (node :: ahead) c → P.Onward ahead n.next.toList [] c
  signal : ∀ {node pending signal n s}, g.get? node = some n → n.step? = some s →
    (s.onSignal signal).Meets Eq P.Spares
      (P.contract (P.told node pending signal) node n.next pending.reverse)

/-- What an action of a run may be: it leaves the extra part of the board alone, or saves a
checkpoint of which the assertion holds. -/
inductive Acts (env : Environment C H X ω) (quiet : ω → ω → Prop) :
    Board C H X × ω → Board C H X × ω → Prop
  | stays {b b' : Board C H X} {w w' : ω} (hextra : b'.extra = b.extra)
      (hlive : P.Spares b.context b'.context) (h : quiet w w') : Acts env quiet (b, w) (b', w')
  | saves {b : Board C H X} {w w' : ω} {x : X} {ahead : List NodeId} {trace : List StepTrace}
      (h : P.Onward [] ahead trace b.context)
      (hsave : env.save ⟨b.context, ahead.reverse, trace⟩ (b.extra, w) = .ok (x, w')) :
    Acts env quiet (b, w) ({ b with extra := x }, w')

/-- What a run reports is so. -/
def Reports (r : Report) (s : Board C H X × ω) : Prop :=
  (r.halt = .drained → P.ahead [] s.1.context) ∧
    ∀ w, r.halt = .suspended w → P.waits w s.1.context

/-- Where a run begins. -/
def Begins (root : NodeId) : StartPoint → C → Prop
  | .root, c => P.ahead [root] c
  | .frontier nodes, c => P.ahead nodes.reverse c
  | .signal node pending signal, c => P.told node pending signal c

end Assertions

/-- Announcing something and the memory of the steps make no more of the world than this. -/
structure Environment.Quietly (env : Environment C H X ω) (quiet : ω → ω → Prop) : Prop where
  refl : ∀ w, quiet w w
  publish : ∀ e w, quiet w (env.publish e w)
  setMemory : ∀ h w, quiet w (env.setMemory h w)

/-- What came of a node leads on. -/
def Visited.Leaves (onward : List NodeId → List StepTrace → C → Prop)
    (waits : String → Option Nanos → C → Prop) (v : Visited) (c : C) : Prop :=
  match v.turn with
  | .onward nodes => onward nodes v.trace c
  | .failed _ => True
  | .suspended signal limit => waits signal limit c

namespace Visited.Leaves

variable {onward : List NodeId → List StepTrace → C → Prop} {waits : String → Option Nanos → C → Prop}
  {v : Visited} {c : C}

theorem of_onward (h : v.Leaves onward waits c) {nodes : List NodeId} (hv : v.turn = .onward nodes) :
    onward nodes v.trace c := by
  rw [Leaves, hv] at h
  exact h

theorem of_suspended (h : v.Leaves onward waits c) {signal : String} {limit : Option Nanos}
    (hv : v.turn = .suspended signal limit) : waits signal limit c := by
  rw [Leaves, hv] at h
  exact h

theorem mono (h : v.Leaves onward waits c) {onward' : List NodeId → List StepTrace → C → Prop}
    {waits' : String → Option Nanos → C → Prop} (ho : ∀ nodes trace c, onward nodes trace c →
      onward' nodes trace c) (hw : ∀ signal limit c, waits signal limit c → waits' signal limit c) :
    v.Leaves onward' waits' c := by
  unfold Leaves at h ⊢
  split at h
  · exact ho _ _ _ h
  · trivial
  · exact hw _ _ _ h

end Visited.Leaves

namespace Environment

variable {env : Environment C H X ω} {g : Graph C H}
  {D I : Board C H X × ω → Board C H X × ω → Prop} {R G : C → C → Prop} {K : Contract C}
  {s : Board C H X × ω} {A : C → Prop}

/-- Keeping the books and announcing something. -/
def Books (env : Environment C H X ω) (s t : Board C H X × ω) : Prop :=
  t.1.context = s.1.context ∧ t.1.extra = s.1.extra ∧
    (t.2 = s.2 ∨ ∃ e, t.2 = env.publish e s.2)

/-- What stands for the others, who make an `R` of the context, and for what a part of a run may do:
it keeps the books, and its steps make a `G` of the context. -/
structure Among (env : Environment C H X ω) (R G : C → C → Prop)
    (D I : Board C H X × ω → Board C H X × ω → Prop) : Prop where
  others : ∀ s t, D s t → R s.1.context t.1.context
  books : ∀ s t, env.Books s t → I s t
  steps : ∀ b c w h, G b.context c → I (b, w) ({ b with context := c }, env.setMemory h w)

/-- The piece leads to what `V` says of its value and the context. -/
abbrev Carries {α : Type} (D I : Board C H X × ω → Board C H X × ω → Prop) (V : α → C → Prop)
    (p : Part C H X ω α) (s : Board C H X × ω) : Prop :=
  Piece.Upholds Report.Stopped D I (fun a t => V a t.1.context) p s

theorem stop_carries {α : Type} {V : α → C → Prop} :
    Carries D I V (stop : Part C H X ω α) s := .halt rfl

namespace Among

variable (h : env.Among R G D I)
include h

theorem idle {f : Board C H X × ω → Board C H X × ω} (hf : ∀ t, env.Books t (f t))
    (hA : ∀ c c', A c → R c c' → A c') (hs : A s.1.context) :
    Carries D I (fun _ => A) (Piece.modify f : Part C H X ω Unit) s := by
  refine .modify fun t ht => ⟨h.books t _ (hf t), ?_⟩
  show A (f t).1.context
  rw [(hf t).1]
  exact hA _ _ hs (h.others s t ht)

theorem read {α : Type} {f : Board C H X × ω → α} {V : α → C → Prop}
    (hA : ∀ c c', A c → R c c' → A c') (hs : A s.1.context)
    (hV : ∀ t, A t.1.context → V (f t) t.1.context) :
    Carries D I V (Piece.read f : Part C H X ω α) s :=
  .read fun t ht => ⟨h.books t t ⟨rfl, rfl, .inl rfl⟩, hV t (hA _ _ hs (h.others s t ht))⟩

theorem announcing (what : Happening) (hA : ∀ c c', A c → R c c' → A c') (hs : A s.1.context) :
    Carries D I (fun _ => A) (env.announcing what) s :=
  h.idle (fun _ => ⟨rfl, rfl, .inr ⟨_, rfl⟩⟩) hA hs

theorem counting (f : Metrics → Metrics) (hA : ∀ c c', A c → R c c' → A c') (hs : A s.1.context) :
    Carries D I (fun _ => A) (counting f : Part C H X ω Unit) s :=
  h.idle (fun _ => ⟨rfl, rfl, .inl rfl⟩) hA hs

omit h in
theorem resting (d : Nanos) (hs : A s.1.context) :
    Carries D I (fun _ => A) (resting d : Part C H X ω Unit) s := by
  refine Piece.Upholds.bind (.pause d (V := fun _ t => A t.1.context) fun _ => hs)
    fun cancelled t ht => ?_
  cases cancelled
  · exact .pure ht
  · exact stop_carries

theorem onBoard {V : CallEnd → C → Prop} {work : Work (C × H) StepResult} {c : C} {m : H}
    (hwork : work.Upholds (fun s t => R s.1 t.1) (fun s t => G s.1 t.1) (fun e t => V e t.1) (c, m))
    (hs : s.1.context = c) :
    (env.onBoard work).Upholds D I (fun e t => V e t.1.context) s := by
  -- The step may remember anything: the memory by which the work was followed does not matter.
  rw [Environment.onBoard]
  induction work generalizing c m s with
  | done r =>
    subst hs
    exact hwork
  | crash message =>
    subst hs
    exact hwork
  | act f rest ih =>
    subst hs
    refine ⟨hwork.1, hwork.2.1, fun t ht => ?_⟩
    obtain ⟨hact, hrest⟩ := hwork.2.2 (t.1.context, env.memory t.2) (h.others s t ht)
    exact ⟨h.steps t.1 _ t.2 _ hact, ih _ hrest rfl⟩
  | sleep d rest ih => exact ih hwork hs
  | awaitCancel rest ih => exact ih hwork hs

/-- The work of a step, called from where the contract begins. -/
theorem call (limit : Option Nanos) {work : Work (C × H) StepResult} (hwork : work.Meets R G K)
    (hs : K.pre s.1.context) :
    Carries D I K.Ends (Piece.call limit (env.onBoard work) : Part C H X ω CallEnd) s :=
  .call limit (h.onBoard (hwork s.1.context (env.memory s.2) hs) rfl)

theorem attempt (hK : K.Lasts R) {step : Step C H} (hwork : step.execute.Meets R G K)
    (hs : K.pre s.1.context) :
    Carries D I (fun r => K.Outcome r.outcome) (env.attempt step) s := by
  refine Piece.Upholds.bind (h.call step.limit hwork hs) fun e t ht => ?_
  have hcheck (r : StepResult) (hr : K.Outcome r.outcome t.1.context) :
      Carries D I (fun r => K.Outcome r.outcome) (do
        if ← env.isCancelled then stop else pure r : Part C H X ω StepResult) t := by
    refine Piece.Upholds.bind (h.read (V := fun _ => K.Outcome r.outcome)
      (fun _ _ => hK.outcome r.outcome) hr fun _ hu => hu) fun cancelled u hu => ?_
    cases cancelled
    · exact .pure hu
    · exact stop_carries
  cases e with
  | timedOut => exact .pure ht
  | cancelled => exact stop_carries
  | finished r => exact hcheck r ht
  | crashed m => exact hcheck _ ht

theorem judge (hK : K.Lasts R) (node : NodeId) (step : Step C H) (policy : RetryPolicy)
    (attempt : Nat) {r : StepResult} (hs : K.Outcome r.outcome s.1.context) :
    Carries D I (fun again c => K.Outcome r.outcome c ∧ (again = true → K.pre c))
      (env.judge node step policy attempt r) s := by
  unfold Environment.judge
  cases hr : r.outcome with
  | success | suspended =>
    rw [hr] at hs
    exact .pure ⟨hs, by simp⟩
  | failure e shouldRetry =>
    rw [hr] at hs
    refine Piece.Upholds.bind (h.announcing _ hK.pre hs) fun _ t ht => ?_
    exact .pure ⟨ht, fun _ => ht⟩

theorem attempts (hK : K.Lasts R) {step : Step C H} (hwork : step.execute.Meets R G K)
    (node : NodeId) (policy : RetryPolicy) (spare attempt : Nat) (hs : K.pre s.1.context) :
    Carries D I (fun x => K.Outcome x.1.outcome) (env.attempts node step policy spare attempt) s := by
  induction spare generalizing attempt s with
  | zero =>
    refine Piece.Upholds.bind (h.attempt hK hwork hs) fun r t ht => ?_
    exact Piece.Upholds.bind (h.judge hK node step policy attempt ht) fun _ u hu => .pure hu.1
  | succ spare ih =>
    refine Piece.Upholds.bind (h.attempt hK hwork hs) fun r t ht => ?_
    refine Piece.Upholds.bind (h.judge hK node step policy attempt ht) fun again u hu => ?_
    cases again with
    | false => exact .pure hu.1
    | true =>
      refine Piece.Upholds.bind (h.counting _ hK.pre (hu.2 rfl)) fun _ u hu => ?_
      exact Piece.Upholds.bind (resting _ hu) fun _ u hu => ih (attempt + 1) hu

theorem trackContextSize (hA : ∀ c c', A c → R c c' → A c') (hs : A s.1.context) :
    Carries D I (fun _ => A) env.trackContextSize s := by
  unfold Environment.trackContextSize
  split
  · refine h.idle (fun t => ?_) hA hs
    simp only
    split <;> exact ⟨rfl, rfl, .inl rfl⟩
  · exact .pure hs

/-- The entry of a step, and flow goes on to its successor if the step has succeeded. -/
theorem settle (hK : K.Lasts R) (node : NodeId) (step : Step C H) (next : Option NodeId)
    (startedAt : Timestamp) {r : StepResult} (n : Nat) (hs : K.Outcome r.outcome s.1.context) :
    Carries D I (fun v => v.Leaves (fun nodes trace c =>
      nodes = next.toList ∧ trace ≠ [] ∧ K.post c) K.waits)
      (env.settle node step next startedAt r n) s := by
  unfold Environment.settle
  refine Piece.Upholds.bind (h.read (V := fun _ => K.Outcome r.outcome)
    (fun _ _ => hK.outcome r.outcome) hs fun _ hu => hu) fun completedAt t ht => ?_
  cases hr : r.outcome with
  | success =>
    rw [hr] at ht
    refine Piece.Upholds.bind (h.idle (fun _ => ⟨rfl, rfl, .inl rfl⟩) hK.post ht) fun _ t ht => ?_
    refine Piece.Upholds.bind (h.announcing _ hK.post ht) fun _ t ht => ?_
    refine Piece.Upholds.bind (h.trackContextSize hK.post ht) fun _ t ht => ?_
    exact .pure ⟨rfl, by simp, ht⟩
  | failure e shouldRetry =>
    rw [hr] at ht
    exact Piece.Upholds.bind (h.counting _ hK.pre ht) fun _ t _ => .pure trivial
  | suspended signal limit =>
    rw [hr] at ht
    exact .pure ht

theorem runStep (hK : K.Lasts R) {step : Step C H} (hwork : step.execute.Meets R G K)
    (node : NodeId) (next : Option NodeId) (hs : K.pre s.1.context) :
    Carries D I (fun v => v.Leaves (fun nodes trace c =>
      nodes = next.toList ∧ trace ≠ [] ∧ K.post c) K.waits) (env.runStep node step next) s := by
  refine Piece.Upholds.bind (h.read (V := fun _ => K.pre) hK.pre hs fun _ hu => hu)
    fun startedAt t ht => ?_
  refine Piece.Upholds.bind (h.attempts hK hwork node _ _ 1 ht) fun x u hu => ?_
  exact h.settle hK node step next startedAt x.2 hu

/-- A visit counts, and then the node is entered, unless that fails. -/
theorem visit {branch : NodeId → Walk (Board C H X × ω) Report} {node : NodeId}
    {onward : List NodeId → List StepTrace → C → Prop} {waits : String → Option Nanos → C → Prop}
    (hA : ∀ c c', A c → R c c' → A c') (hs : A s.1.context)
    (henter : ∀ n t, g.get? node = some n → A t.1.context →
      Carries D I (fun v => v.Leaves onward waits) (env.enter branch node n) t) :
    Carries D I (fun v => v.Leaves onward waits) (env.visit g branch node) s := by
  refine Piece.Upholds.bind (V := fun _ t => A t.1.context) (.update fun t ht => ?_)
    fun admission t ht => ?_
  · have ht := hA _ _ hs (h.others s t ht)
    simp only [countVisit]
    split
    · exact ⟨h.books t t ⟨rfl, rfl, .inl rfl⟩, ht⟩
    · exact ⟨h.books t _ ⟨rfl, rfl, .inl rfl⟩, ht⟩
  · cases admission with
    | cancelled => exact stop_carries
    | refused => exact .pure trivial
    | admitted =>
      simp only
      cases hn : g.get? node with
      | none => exact .pure trivial
      | some n => exact henter n t hn ht

end Among

/-! ### Along the graph -/

variable {P : Assertions C} {quiet drift : ω → ω → Prop} {node : NodeId} {ahead : List NodeId}
  {n : Node C H} {c : C} {branch : NodeId → Walk (Board C H X × ω) Report}

theorem among_drift (hquiet : env.Quietly quiet) :
    env.Among Eq P.Spares (Beside drift) (P.Acts env quiet) where
  others s t h := congrArg Board.context h.1.symm
  books s t h := by
    obtain ⟨hcontext, hextra, hworld⟩ := h
    refine .stays hextra (fun hlive => hcontext ▸ hlive) ?_
    obtain hsame | ⟨e, he⟩ := hworld
    · exact hsame ▸ hquiet.refl _
    · exact he ▸ hquiet.publish e _
  steps b c w m h := .stays rfl h (hquiet.setMemory m w)

/-- The branches of a block run among each other. -/
theorem among_branches (hquiet : env.Quietly quiet) (hrefl : ∀ c, R c c) :
    env.Among R (fun c c' => P.Spares c c' ∧ R c c') (fun s t => R s.1.context t.1.context)
      (fun s t => P.Acts env quiet s t ∧ R s.1.context t.1.context) where
  others _ _ h := h
  books s t h := by
    have hacts : env.Among Eq P.Spares (Beside fun _ _ => True) (P.Acts env quiet) :=
      among_drift hquiet
    refine ⟨hacts.books s t h, ?_⟩
    rw [h.1]
    exact hrefl _
  steps b c w m h := ⟨.stays rfl h.1 (hquiet.setMemory m w), h.2⟩

/-- A branch has failed or was cancelled, or it has come to `post`, with entries. -/
def Kept (post : C → Prop) (r : Report) (s : Board C H X × ω) : Prop :=
  r.isCancelled = true ∨ r.failure?.isSome = true ∨
    r.halt = .drained ∧ r.trace ≠ [] ∧ post s.1.context

theorem branch_upholds (hquiet : env.Quietly quiet) (hrefl : ∀ c, R c c) {child : NodeId}
    {post : C → Prop} (h : P.Branch g R s.1.context child post) (fuel : Nat) :
    (env.walkBranch g fuel [child] []).Upholds (fun s t => R s.1.context t.1.context)
      (fun s t => P.Acts env quiet s t ∧ R s.1.context t.1.context) (Kept post) s := by
  obtain ⟨step, pre, hn, hpre, hlasts, hwork⟩ := h
  have hamong : env.Among R (fun c c' => P.Spares c c' ∧ R c c')
      (fun s t => R s.1.context t.1.context)
      (fun s t => P.Acts env quiet s t ∧ R s.1.context t.1.context) := among_branches hquiet hrefl
  cases fuel with
  | zero => exact .inr (.inl rfl)
  | succ fuel =>
    rw [walkBranch]
    have hvisit : Carries (fun s t => R s.1.context t.1.context)
        (fun s t => P.Acts env quiet s t ∧ R s.1.context t.1.context)
        (fun v => v.Leaves (fun nodes trace c => nodes = [] ∧ trace ≠ [] ∧ post c) fun _ _ _ => True)
        (env.visit g (fun child => env.walkBranch g fuel [child] []) child) s := by
      refine hamong.visit hlasts.pre hpre fun n t hn' ht => ?_
      rw [hn] at hn'
      cases hn'
      exact hamong.runStep hlasts hwork child none ht
    refine hvisit _ _ (fun r t hr => .inl hr) fun v t hv => ?_
    cases hturn : v.turn with
    | onward nodes =>
      obtain ⟨rfl, htrace, hpost⟩ := hv.of_onward hturn
      simp only [List.nil_append]
      cases fuel <;> exact .inr (.inr ⟨rfl, htrace, hpost⟩)
    | failed f => exact .inr (.inl rfl)
    | suspended signal limit => exact .inr (.inl rfl)

theorem branches_uphold (hquiet : env.Quietly quiet) (hrefl : ∀ c, R c c)
    {tasks : List (NodeId × (C → Prop))} (h : ∀ x ∈ tasks, P.Branch g R s.1.context x.1 x.2)
    (fuel : Nat) : allUphold (fun s t => R s.1.context t.1.context)
      (fun s t => P.Acts env quiet s t ∧ R s.1.context t.1.context)
      ((tasks.map (·.1)).map fun child => env.walkBranch g fuel [child] [])
      (tasks.map fun x => Kept x.2) s := by
  induction tasks with
  | nil => rfl
  | cons x tasks ih =>
    obtain ⟨hx, htasks⟩ := List.forall_mem_cons.1 h
    exact ⟨_, _, rfl, branch_upholds hquiet hrefl hx fuel, ih htasks⟩

/-- Where no branch has failed or was cancelled, all of them have come to what they promise. -/
theorem join_leaves {tasks : List (NodeId × (C → Prop))} {reports : List Report}
    {next : Option NodeId} (hany : tasks ≠ []) (hkept : ∀ x ∈ tasks, ∃ r ∈ reports, Kept x.2 r s)
    (hcalm : reports.any Report.isCancelled = false)
    (hgoal : (∀ x ∈ tasks, x.2 s.1.context) → P.ahead (next.toList ++ ahead) s.1.context)
    {waits : String → Option Nanos → C → Prop} :
    (join reports next).Leaves (P.Onward ahead) waits s.1.context := by
  unfold join Visited.Leaves
  cases hfailed : reports.findSome? Report.failure? with
  | some f => exact trivial
  | none =>
    have hdone : ∀ x ∈ tasks, ∃ r ∈ reports, r.trace ≠ [] ∧ x.2 s.1.context := by
      intro x hx
      obtain ⟨r, hr, hcancelled | hfailure | ⟨-, htrace, hheld⟩⟩ := hkept x hx
      · exact absurd hcancelled (List.any_eq_false.1 hcalm r hr)
      · rw [List.findSome?_eq_none_iff.1 hfailed r hr] at hfailure
        simp at hfailure
      · exact ⟨r, hr, htrace, hheld⟩
    refine ⟨hgoal fun x hx => ?_, fun _ => ?_⟩
    · obtain ⟨-, -, -, hheld⟩ := hdone x hx
      exact hheld
    · obtain ⟨x, hx⟩ := List.exists_mem_of_ne_nil tasks hany
      obtain ⟨r, hr, htrace, -⟩ := hdone x hx
      intro hnone
      exact htrace (List.flatMap_eq_nil_iff.1 hnone r hr)

theorem runParallel_carries (hquiet : env.Quietly quiet) {children : List NodeId}
    {next : Option NodeId} {tasks : List (NodeId × (C → Prop))}
    {waits : String → Option Nanos → C → Prop}
    (h : P.Split g s.1.context children (P.ahead (next.toList ++ ahead)) R tasks) (fuel : Nat) :
    Carries (Beside drift) (P.Acts env quiet) (fun v => v.Leaves (P.Onward ahead) waits)
      (env.runParallel (fun child => env.walkBranch g fuel [child] []) children next) s := by
  have hadmits : Admits (Beside drift) (fun s t : Board C H X × ω => R s.1.context t.1.context)
      (tasks.map fun x => Kept x.2) := by
    refine ⟨fun s => h.refl _, fun s t u => h.trans _ _ _, fun s t hst => ?_, fun kept hkept => ?_⟩
    · rw [hst.1]
      exact h.refl _
    · obtain ⟨x, hx, rfl⟩ := List.mem_map.1 hkept
      obtain ⟨step, pre, -, -, hlasts, -⟩ := h.branches x hx
      exact fun r s t hr hst => hr.imp id (Or.imp id fun ⟨hdrained, htrace, hheld⟩ =>
        ⟨hdrained, htrace, hlasts.post _ _ hheld hst⟩)
  obtain rfl := h.nodes
  refine Piece.Upholds.bind (.fork hadmits (branches_uphold hquiet h.refl h.branches fuel))
    fun reports t ht => ?_
  obtain ⟨hmove, hreports⟩ := ht
  have hkept : ∀ x ∈ tasks, ∃ r ∈ reports, Kept x.2 r t := fun x hx =>
    hreports _ (List.mem_map_of_mem hx)
  have hread : Carries (Beside drift) (P.Acts env quiet) (fun _ c => c = t.1.context)
      (env.isCancelled : Part C H X ω Bool) t :=
    (among_drift hquiet).read (A := (· = t.1.context)) (fun _ _ hc he => he ▸ hc) rfl fun _ hu => hu
  refine Piece.Upholds.bind hread fun cancelled u hu => ?_
  split
  · exact stop_carries
  · next hcalm =>
    rw [Bool.not_eq_true, Bool.or_eq_false_iff] at hcalm
    refine .pure ?_
    show (join reports next).Leaves _ _ u.1.context
    rw [hu]
    exact join_leaves h.any hkept hcalm.2 (h.goal _ hmove)

/-- A node leads from the assertion in front of it to the one behind it. -/
theorem enter_carries (hquiet : env.Quietly quiet) (hfits : P.Fits g) (hn : g.get? node = some n)
    (h : P.ahead (node :: ahead) s.1.context) (fuel : Nat) :
    Carries (Beside drift) (P.Acts env quiet) (fun v => v.Leaves (P.Onward ahead)
      fun signal limit => P.waits ⟨signal, limit, node, ahead.reverse⟩)
      (env.enter (fun child => env.walkBranch g fuel [child] []) node n) s := by
  have hamong : env.Among Eq P.Spares (Beside drift) (P.Acts env quiet) := among_drift hquiet
  unfold enter
  cases hkind : n.kind with
  | step step =>
    refine (hamong.runStep (Contract.lasts_eq _) (hfits.step hn hkind) node n.next h).mono
      fun v t hv => hv.mono (fun nodes trace c hnodes => ?_) fun _ _ _ hw => hw
    obtain ⟨rfl, htrace, hahead⟩ := hnodes
    exact ⟨hahead, fun _ => htrace⟩
  | sequence children => exact .pure (hfits.sequence hn hkind h)
  | conditional holds t e =>
    have hread : Carries (Beside drift) (P.Acts env quiet)
        (fun verdict c => P.ahead (node :: ahead) c ∧ verdict = holds c)
        (Piece.read fun s => holds s.1.context : Part C H X ω (Except String Bool)) s :=
      hamong.read (fun _ _ hc he => he ▸ hc) h fun _ hu => ⟨hu, rfl⟩
    refine Piece.Upholds.bind hread fun verdict u hu => ?_
    cases verdict with
    | error m => exact .pure trivial
    | ok b => exact .pure (hfits.choice hn hkind hu.1 hu.2.symm)
  | parallel children =>
    obtain ⟨R, tasks, hsplit⟩ := hfits.parallel hn hkind h
    exact runParallel_carries hquiet hsplit fuel
  | delay d =>
    exact Piece.Upholds.bind (Among.resting d h) fun _ t ht => .pure (hfits.delay hn hkind ht)

theorem pass_upholds (hquiet : env.Quietly quiet) {v : Visited}
    {next : List NodeId → Walk (Board C H X × ω) Report}
    (hv : v.Leaves (P.Onward ahead) (fun signal limit => P.waits ⟨signal, limit, node, ahead.reverse⟩)
      s.1.context)
    (hnext : ∀ nodes t, P.ahead nodes t.1.context →
      (next nodes).Upholds (Beside drift) (P.Acts env quiet) P.Reports t) :
    (env.pass node ahead v next).Upholds (Beside drift) (P.Acts env quiet) P.Reports s := by
  intro t ht
  have hcontext : t.1.context = s.1.context := congrArg Board.context ht.1
  refine ⟨.stays rfl (fun hlive => hlive) (hquiet.refl _), ?_⟩
  cases hturn : v.turn with
  | onward nodes =>
    have hon := hv.of_onward hturn
    intro u hu
    have hcontext' : u.1.context = s.1.context := (congrArg Board.context hu.1).trans hcontext
    rw [← hcontext'] at hon
    simp only
    cases hsave : env.save ⟨u.1.context, (nodes ++ ahead).reverse, v.trace⟩ (u.1.extra, u.2) with
    | ok x =>
      obtain ⟨extra, w⟩ := x
      have honward : P.Onward [] (nodes ++ ahead) v.trace u.1.context := by
        rw [Assertions.Onward, List.append_nil]
        exact hon
      exact ⟨.saves honward hsave, hnext _ _ hon.1⟩
    | error m => exact ⟨.stays rfl (fun hlive => hlive) (hquiet.refl _), by simp [Assertions.Reports, Walk.Upholds]⟩
  | failed f => simp [Assertions.Reports, Walk.Upholds]
  | suspended signal limit =>
    intro u hu
    have hcontext' : u.1.context = s.1.context := (congrArg Board.context hu.1).trans hcontext
    refine ⟨.stays rfl (fun hlive => hlive) (hquiet.publish _ _), by simp, fun w hw => ?_⟩
    cases hw
    show P.waits _ u.1.context
    rw [hcontext']
    exact hv.of_suspended hturn

theorem reports_of_stopped {r : Report} (h : r.Stopped) : P.Reports r s := by
  have hhalt : r.halt = .cancelled := eq_of_beq h
  exact ⟨by simp [hhalt], by simp [hhalt]⟩

theorem walkMain_upholds (hquiet : env.Quietly quiet) (hfits : P.Fits g) (fuel : Nat)
    (nodes : List NodeId) (h : P.ahead nodes s.1.context) :
    (env.walkMain g fuel nodes).Upholds (Beside drift) (P.Acts env quiet) P.Reports s := by
  induction fuel generalizing nodes s with
  | zero =>
    cases nodes with
    | nil => exact ⟨fun _ => h, by simp⟩
    | cons node ahead => exact ⟨by simp, by simp⟩
  | succ fuel ih =>
    cases nodes with
    | nil => exact ⟨fun _ => h, by simp⟩
    | cons node ahead =>
      rw [walkMain]
      have hvisit : Carries (Beside drift) (P.Acts env quiet) (fun v => v.Leaves (P.Onward ahead)
          fun signal limit => P.waits ⟨signal, limit, node, ahead.reverse⟩)
          (env.visit g (fun child => env.walkBranch g fuel [child] []) node) s :=
        (among_drift hquiet).visit (fun _ _ hc he => he ▸ hc) h fun n t hn ht =>
          enter_carries hquiet hfits hn ht fuel
      exact hvisit _ _ (fun r t => reports_of_stopped) fun v t hv =>
        pass_upholds hquiet hv fun nodes u hu => ih nodes hu

/-- The step that a signal is for leads on, once it has been given the signal. -/
theorem deliver_carries (hquiet : env.Quietly quiet) (hfits : P.Fits g) {pending : List NodeId}
    {signal : Signal} (h : P.told node pending signal s.1.context) :
    Carries (Beside drift) (P.Acts env quiet) (fun v => v.Leaves (P.Onward pending.reverse)
      fun name limit => P.waits ⟨name, limit, node, pending.reverse.reverse⟩)
      (env.deliver g node signal) s := by
  have hamong : env.Among Eq P.Spares (Beside drift) (P.Acts env quiet) := among_drift hquiet
  unfold deliver
  split
  · exact .pure trivial
  · next n hn =>
    split
    · exact .pure trivial
    · next step hstep =>
      have hwork : (step.onSignal signal).Meets Eq P.Spares
          (P.contract (P.told node pending signal) node n.next pending.reverse) :=
        hfits.signal hn hstep
      refine Piece.Upholds.bind (hamong.read (V := fun _ => P.told node pending signal)
        (fun _ _ hc he => he ▸ hc) h fun _ hu => hu) fun startedAt t ht => ?_
      have hsettle (r : StepResult) (u : Board C H X × ω) (hr : (P.contract
          (P.told node pending signal) node n.next pending.reverse).Outcome r.outcome u.1.context) :
          Carries (Beside drift) (P.Acts env quiet) (fun v => v.Leaves (P.Onward pending.reverse)
            fun name limit => P.waits ⟨name, limit, node, pending.reverse.reverse⟩)
            (env.settle node step n.next startedAt r 1) u := by
        refine (hamong.settle (Contract.lasts_eq _) node step n.next startedAt 1 hr).mono
          fun v t hv => hv.mono (fun nodes trace c hnodes => ?_) fun _ _ _ hw => hw
        obtain ⟨rfl, htrace, hahead⟩ := hnodes
        exact ⟨hahead, fun _ => htrace⟩
      refine Piece.Upholds.bind (hamong.call none hwork ht) fun e u hu => ?_
      cases e with
      | finished r => exact hsettle r u hu
      | crashed m => exact hsettle _ u hu
      | timedOut | cancelled => exact stop_carries

/-- From where the assertion holds, every checkpoint and the end of a run are as the assertions
say. -/
theorem traverse_upholds (hquiet : env.Quietly quiet) {d : Definition C H} (hfits : P.Fits d.graph)
    {start : StartPoint} (h : P.Begins d.root start s.1.context) :
    (env.traverse d start).Upholds (Beside drift) (P.Acts env quiet) P.Reports s := by
  cases start with
  | root => exact walkMain_upholds hquiet hfits _ _ h
  | frontier nodes => exact walkMain_upholds hquiet hfits _ _ h
  | signal node pending signal =>
    exact deliver_carries hquiet hfits h _ _ (fun r t => reports_of_stopped) fun v t hv =>
      pass_upholds hquiet hv fun nodes u hu => walkMain_upholds hquiet hfits _ nodes hu

end Environment

end DurableWorkflow

import DurableWorkflow.Proofs.Walk.Agree
import DurableWorkflow.Run.Engine

/-!
# Runs on like contexts

Where the steps work on the context alone, a run does the same in any surroundings and at any time:
two boards with the same context are alike, whatever the clocks say, whatever has been counted, and
whoever saves the checkpoints. What is left of a report apart from the times is its gist.

This holds as long as no visit is refused and nobody cancels; a walk to which that happens is
doomed.
-/

namespace DurableWorkflow

variable {C H X ω κ : Type}

/-! ### What does not depend on the clocks -/

/-- Step, node, outcome and attempts of an entry. -/
def StepTrace.gist (t : StepTrace) : String × NodeId × TraceOutcome × Nat :=
  (t.step, t.node, t.outcome, t.attempts)

/-- An entry without its times. -/
abbrev Gist := String × NodeId × TraceOutcome × Nat

/-- What is said of a visit beyond the limit. -/
def RunOptions.limitText (o : RunOptions) : String :=
  "node visit limit of " ++ toString o.maxNodeVisits ++ " exceeded"

/-- The failure of a visit beyond the limit. -/
def Failure.IsRefusal (o : RunOptions) (f : Failure) : Prop :=
  ∃ node, f = .ofEngine "engine" node o.limitText

namespace Report

def gist (r : Report) : List Gist × Halt := (r.trace.map (·.gist), r.halt)

/-- The run was not cancelled, and no visit was refused. -/
def Fair (o : RunOptions) (r : Report) : Prop :=
  r.halt ≠ .cancelled ∧ ∀ f, r.halt = .failed f → ¬f.IsRefusal o

end Report

namespace Visited

def gist (v : Visited) : List Gist × Turn := (v.trace.map (·.gist), v.turn)

/-- The visit was refused. -/
def Refused (o : RunOptions) (v : Visited) : Prop := ∃ f, v.turn = .failed f ∧ f.IsRefusal o

theorem not_refused {o : RunOptions} {v : Visited} (h : ∀ f, v.turn ≠ .failed f) : ¬v.Refused o :=
  fun ⟨f, hf, _⟩ => h f hf

end Visited

/-- Boards on which the context is the same, and reports that differ in their times at most. -/
def Board.likeness (C H X ω : Type) (o : RunOptions) : Likeness (Board C H X × ω) Report where
  state s t := s.1.context = t.1.context
  report r r' := r.gist = r'.gist
  ok := Report.Fair o

/-- The work of the step depends on the context alone, and on what `key` tells of a signal. -/
structure Step.Blind (key : Signal → κ) (s : Step C H) : Prop where
  execute : s.execute.Agree (fun x y => x.1 = y.1) s.execute
  onSignal : ∀ x y, key x = key y → (s.onSignal x).Agree (fun x y => x.1 = y.1) (s.onSignal y)

def Graph.Blind (key : Signal → κ) (g : Graph C H) : Prop :=
  ∀ node n s, g.get? node = some n → n.kind = .step s → s.Blind key

/-- What the schedule says depends on nothing but the context, the works of the steps, and the
branches as parts of the graph. -/
structure Schedule.Behavioural (T : Schedule (Board C H X × ω) Report) (o : RunOptions)
    (g : Graph C H) : Prop where
  late : ∀ (env env' : Environment C H X ω) limit work (s t : Board C H X × ω),
    s.1.context = t.1.context →
      T.late limit (env.onBoard work) s = T.late limit (env'.onBoard work) t
  cues : ∀ (env env' : Environment C H X ω) n n' (children : List NodeId)
    (s t : Board C H X × ω),
    env.options = o → env'.options = o → s.1.context = t.1.context →
      T.cues (children.map fun child => env.walkBranch g n [child] []) s =
        T.cues (children.map fun child => env'.walkBranch g n' [child] []) t

theorem Schedule.inOrder_behavioural (o : RunOptions) (g : Graph C H) :
    (inOrder : Schedule (Board C H X × ω) Report).Behavioural o g :=
  ⟨fun _ _ _ _ _ _ _ => rfl, fun _ _ _ _ _ _ _ _ _ _ => rfl⟩

/-! ### Pieces of a run -/

namespace Environment

variable {o : RunOptions} {env env' : Environment C H X ω} {key : Signal → κ} {g : Graph C H}
  {T : Schedule (Board C H X × ω) Report}

theorem onBoard_agree {work work' : Work (C × H) StepResult}
    (h : work.Agree (fun x y => x.1 = y.1) work') :
    (env.onBoard work).Agree (Board.likeness C H X ω o).state (env'.onBoard work') := by
  simp only [onBoard]
  induction h with
  | done a => exact .done a
  | crash m => exact .crash m
  | act hact _ ih => exact .act (fun s t hst => hact _ _ hst) fun s t hst => ih _ _ hst
  | sleep d _ ih => exact .sleep d ih
  | awaitCancel _ ih => exact .awaitCancel ih

/-- Two parts of runs with these options are alike. -/
abbrev PartsAlike (o : RunOptions) (T : Schedule (Board C H X × ω) Report) {α : Type}
    (V : α → α → Prop) (p q : Part C H X ω α) : Prop :=
  Piece.Alike (Board.likeness C H X ω o) T V p q

theorem stop_left {α : Type} {V : α → α → Prop} {q : Part C H X ω α} :
    PartsAlike o T V stop q := .haltLeft fun h => h.1 rfl

theorem stop_right {α : Type} {V : α → α → Prop} {p : Part C H X ω α} :
    PartsAlike o T V p stop := .haltRight fun h => h.1 rfl

theorem isCancelled_alike : PartsAlike o T (fun _ _ => True) env.isCancelled env'.isCancelled :=
  .read fun _ _ _ => trivial

theorem announcing_alike (what what' : Happening) :
    PartsAlike o T (fun _ _ => True) (env.announcing what) (env'.announcing what') :=
  .modify fun _ _ hst => hst

theorem counting_alike (f : Metrics → Metrics) :
    PartsAlike (X := X) (ω := ω) (C := C) (H := H) o T (fun _ _ => True) (counting f)
      (counting f) :=
  .modify fun _ _ hst => hst

theorem resting_alike (d : Nanos) :
    PartsAlike (C := C) (H := H) (X := X) (ω := ω) o T (fun _ _ => True) (resting d)
      (resting d) :=
  (Piece.Alike.pause d).bind fun b b' ⟨hb, hb'⟩ => by
    subst hb hb'
    exact .pure trivial

/-- Both hand on the result, unless one is stopped. -/
theorem check_alike (r : StepResult) :
    PartsAlike o T Eq (do if ← env.isCancelled then stop else pure r)
      (do if ← env'.isCancelled then stop else pure r) :=
  isCancelled_alike.bind fun b b' _ => by
    cases b
    · cases b'
      · exact .pure rfl
      · exact stop_right
    · exact stop_left

theorem attempt_alike (hT : T.Behavioural o g) {s : Step C H} (hs : s.Blind key) :
    PartsAlike o T Eq (env.attempt s) (env'.attempt s) := by
  refine .bind (.call s.limit (onBoard_agree (o := o) hs.execute) fun x y hxy _ =>
    hT.late env env' s.limit s.execute x y hxy) fun ending ending' hending => ?_
  subst hending
  cases ending with
  | timedOut => exact .pure rfl
  | cancelled => exact stop_left
  | finished r => exact check_alike r
  | crashed m => exact check_alike _

theorem judge_alike (node : NodeId) (s : Step C H) (policy : RetryPolicy) (attempt : Nat)
    (r : StepResult) :
    PartsAlike o T Eq (env.judge node s policy attempt r) (env'.judge node s policy attempt r) := by
  unfold judge
  cases r.outcome with
  | success | suspended => exact .pure rfl
  | failure => exact (announcing_alike _ _).bind fun _ _ _ => .pure rfl

theorem attempts_alike (hT : T.Behavioural o g) {s : Step C H} (hs : s.Blind key) (node : NodeId)
    (policy : RetryPolicy) (spare attempt : Nat) :
    PartsAlike o T Eq (env.attempts node s policy spare attempt)
      (env'.attempts node s policy spare attempt) := by
  induction spare generalizing attempt with
  | zero =>
    refine (attempt_alike hT hs).bind fun r r' hr => ?_
    subst hr
    exact (judge_alike node s policy attempt r).bind fun _ _ _ => .pure rfl
  | succ spare ih =>
    refine (attempt_alike hT hs).bind fun r r' hr => ?_
    subst hr
    refine (judge_alike node s policy attempt r).bind fun b b' hb => ?_
    subst hb
    cases b
    · exact .pure rfl
    · exact (counting_alike _).bind fun _ _ _ => (resting_alike _).bind fun _ _ _ => ih (attempt + 1)

theorem trackContextSize_alike (henv : env.options = o) (henv' : env'.options = o) :
    PartsAlike o T (fun _ _ => True) env.trackContextSize env'.trackContextSize := by
  unfold trackContextSize
  rw [henv, henv']
  split
  · refine .modify fun s t hst => ?_
    have hsame : s.1.context = t.1.context := hst
    simp only [Board.likeness]
    split <;> split <;> exact hsame
  · exact .pure trivial

/-- The books differ in the times of the entry at most. -/
theorem settle_alike (henv : env.options = o) (henv' : env'.options = o) (node : NodeId)
    (s : Step C H) (next : Option NodeId) (startedAt startedAt' : Timestamp) (r : StepResult)
    (n : Nat) :
    PartsAlike o T (fun v v' => v.gist = v'.gist) (env.settle node s next startedAt r n)
      (env'.settle node s next startedAt' r n) := by
  refine .bind (V := fun _ _ => True) (.read fun _ _ _ => trivial) fun t t' _ => ?_
  cases r.outcome with
  | success =>
    refine .bind (V := fun _ _ => True) (.modify fun _ _ hst => hst) fun _ _ _ => ?_
    exact (announcing_alike _ _).bind fun _ _ _ =>
      (trackContextSize_alike henv henv').bind fun _ _ _ => .pure rfl
  | failure error => exact (counting_alike _).bind fun _ _ _ => .pure rfl
  | suspended signal limit => exact .pure rfl

theorem runStep_alike (henv : env.options = o) (henv' : env'.options = o)
    (hT : T.Behavioural o g) {s : Step C H} (hs : s.Blind key) (node : NodeId)
    (next : Option NodeId) :
    PartsAlike o T (fun v v' => v.gist = v'.gist) (env.runStep node s next)
      (env'.runStep node s next) := by
  refine .bind (V := fun _ _ => True) (.read fun _ _ _ => trivial) fun t t' _ => ?_
  rw [henv, henv']
  refine (attempts_alike hT hs node _ _ 1).bind fun x x' hx => ?_
  subst hx
  exact settle_alike henv henv' node s next t t' x.1 x.2

theorem choose_alike (node : NodeId) (holds : Predicate C) (t e next : Option NodeId) :
    PartsAlike (C := C) (H := H) (X := X) (ω := ω) o T (fun v v' => v.gist = v'.gist)
      (choose node holds t e next) (choose node holds t e next) := by
  refine .bind (V := Eq) (.read fun x y hxy => ?_) fun verdict verdict' hverdict => ?_
  · show holds x.1.context = holds y.1.context
    rw [show x.1.context = y.1.context from hxy]
  · subst hverdict
    cases verdict <;> exact .pure rfl

theorem join_gist {reports reports' : List Report}
    (h : List.Forall₂ (fun r r' => r.gist = r'.gist) reports reports') (next : Option NodeId) :
    (join reports next).gist = (join reports' next).gist := by
  have hboth : (reports.flatMap (·.trace)).map (·.gist) =
        (reports'.flatMap (·.trace)).map (·.gist) ∧
      reports.findSome? Report.failure? = reports'.findSome? Report.failure? := by
    induction h with
    | nil => exact ⟨rfl, rfl⟩
    | @cons r r' rs rs' hr _ ih =>
      obtain ⟨htrace, hhalt⟩ := Prod.mk.inj hr
      obtain ⟨hentries, hfailure⟩ := ih
      refine ⟨?_, ?_⟩
      · rw [List.flatMap_cons, List.flatMap_cons, List.map_append, List.map_append, htrace,
          hentries]
      · rw [List.findSome?_cons, List.findSome?_cons, hfailure, Report.failure?, Report.failure?,
          hhalt]
  simp only [join, Visited.gist, hboth.1, hboth.2]

theorem runParallel_alike {branch branch' : NodeId → Walk (Board C H X × ω) Report}
    (hbranch : ∀ node, (branch node).Agree (Board.likeness C H X ω o) (some T) (branch' node))
    (hcues : ∀ (children : List NodeId) (s t : Board C H X × ω), s.1.context = t.1.context →
      T.cues (children.map branch) s = T.cues (children.map branch') t)
    (children : List NodeId) (next : Option NodeId) :
    PartsAlike o T (fun v v' => v.gist = v'.gist) (env.runParallel branch children next)
      (env'.runParallel branch' children next) := by
  refine .bind (.fork (by simp) (fun i w v hw hv => ?_) (hcues children))
    fun reports reports' hreports => ?_
  · rw [List.getElem?_map, Option.map_eq_some_iff] at hw hv
    obtain ⟨node, hnode, rfl⟩ := hw
    obtain ⟨node', hnode', rfl⟩ := hv
    rw [hnode] at hnode'
    cases hnode'
    exact hbranch node
  · refine isCancelled_alike.bind fun b b' _ => ?_
    split
    · exact stop_left
    · split
      · exact stop_right
      · exact .pure (join_gist hreports next)

theorem enter_alike (henv : env.options = o) (henv' : env'.options = o)
    (hT : T.Behavioural o g) (hg : g.Blind key)
    {branch branch' : NodeId → Walk (Board C H X × ω) Report}
    (hbranch : ∀ node, (branch node).Agree (Board.likeness C H X ω o) (some T) (branch' node))
    (hcues : ∀ (children : List NodeId) (s t : Board C H X × ω), s.1.context = t.1.context →
      T.cues (children.map branch) s = T.cues (children.map branch') t)
    {node : NodeId} {n : Node C H} (hn : g.get? node = some n) :
    PartsAlike o T (fun v v' => v.gist = v'.gist) (env.enter branch node n)
      (env'.enter branch' node n) := by
  unfold enter
  cases hkind : n.kind with
  | step s => exact runStep_alike henv henv' hT (hg node n s hn hkind) node n.next
  | sequence => exact .pure rfl
  | conditional holds t e => exact choose_alike node holds t e n.next
  | parallel children => exact runParallel_alike hbranch hcues children n.next
  | delay d => exact (resting_alike d).bind fun _ _ _ => .pure rfl

/-- The failure of a visit beyond the limit is a refusal. -/
theorem refusal (henv : env.options = o) (node : NodeId) :
    (Failure.ofEngine "engine" node env.limitMessage).IsRefusal o := by
  subst henv
  exact ⟨node, rfl⟩

/-- A visit hands on alike, or hands on to a doomed walk, or is refused. -/
theorem visit_agree (henv : env.options = o) (henv' : env'.options = o)
    (hT : T.Behavioural o g) (hg : g.Blind key)
    {branch branch' : NodeId → Walk (Board C H X × ω) Report}
    (hbranch : ∀ node, (branch node).Agree (Board.likeness C H X ω o) (some T) (branch' node))
    (hcues : ∀ (children : List NodeId) (s t : Board C H X × ω), s.1.context = t.1.context →
      T.cues (children.map branch) s = T.cues (children.map branch') t)
    (node : NodeId) {k l : Visited → Walk (Board C H X × ω) Report}
    (hk : ∀ v, v.Refused o → (k v).Doomed (Report.Fair o))
    (hl : ∀ v, v.Refused o → (l v).Doomed (Report.Fair o))
    (hkl : ∀ v v', v.gist = v'.gist →
      (k v).Agree (Board.likeness C H X ω o) (some T) (l v')) :
    (env.visit g branch node k).Agree (Board.likeness C H X ω o) (some T)
      (env'.visit g branch' node l) := by
  have hcount (env : Environment C H X ω) (s : Board C H X × ω) :
      (env.countVisit s).2.1.context = s.1.context := by
    unfold countVisit
    simp only
    split <;> rfl
  refine .act (fun s t hst => ?_) fun s t _ => ?_
  · exact (hcount env s).trans (Eq.trans hst (hcount env' t).symm)
  · cases (env.countVisit s).1 with
    | cancelled => exact .left (.done fun h => h.1 rfl)
    | refused => exact .left (hk _ ⟨_, rfl, refusal henv node⟩)
    | admitted =>
      cases (env'.countVisit t).1 with
      | cancelled => exact .right (.done fun h => h.1 rfl)
      | refused => exact .right (hl _ ⟨_, rfl, refusal henv' node⟩)
      | admitted =>
        simp only
        cases hn : g.get? node with
        | none => exact Piece.Alike.pure (V := fun v v' => v.gist = v'.gist) (Eq.refl _) k l hkl
        | some n => exact enter_alike henv henv' hT hg hbranch hcues hn k l hkl

/-- Branches do alike, whatever fuel they have. -/
theorem walkBranch_agree (henv : env.options = o) (henv' : env'.options = o)
    (hT : T.Behavioural o g) (hg : g.Blind key) (n n' : Nat) (nodes : List NodeId)
    {trace trace' : List StepTrace} (htrace : trace.map (·.gist) = trace'.map (·.gist)) :
    (env.walkBranch g n nodes trace).Agree (Board.likeness C H X ω o) (some T)
      (env'.walkBranch g n' nodes trace') := by
  have hrefused (env : Environment C H X ω) (henv : env.options = o) (node : NodeId)
      (trace : List StepTrace) : ¬Report.Fair o
        ⟨trace, .failed (Failure.ofEngine "engine" node env.limitMessage)⟩ := fun h =>
    h.2 _ rfl (refusal henv node)
  induction n generalizing n' nodes trace trace' with
  | zero =>
    cases nodes with
    | nil => cases n' <;> exact .done (Prod.ext htrace rfl)
    | cons node ahead => exact .left (.done (hrefused env henv node trace))
  | succ n ih =>
    cases nodes with
    | nil => cases n' <;> exact .done (Prod.ext htrace rfl)
    | cons node ahead =>
      cases n' with
      | zero => exact .right (.done (hrefused env' henv' node trace'))
      | succ n' =>
        rw [walkBranch, walkBranch]
        refine visit_agree henv henv' hT hg (fun child => ih n' [child] rfl)
          (fun children s t hst => hT.cues env env' n n' children s t henv henv' hst) node
          (fun v hv => ?_) (fun v hv => ?_) fun v v' hv => ?_
        · obtain ⟨f, hf, hrefusal⟩ := hv
          simp only [hf]
          exact .done fun h => h.2 f rfl hrefusal
        · obtain ⟨f, hf, hrefusal⟩ := hv
          simp only [hf]
          exact .done fun h => h.2 f rfl hrefusal
        obtain ⟨hentries, hturn⟩ := Prod.mk.inj hv
        have hall : (trace ++ v.trace).map (·.gist) = (trace' ++ v'.trace).map (·.gist) := by
          rw [List.map_append, List.map_append, htrace, hentries]
        simp only [hturn]
        cases v'.turn with
        | onward next => exact ih n' _ hall
        | failed f => exact .done (Prod.ext hall rfl)
        | suspended signal limit => exact .done (Prod.ext hall rfl)

theorem deliver_alike (henv : env.options = o) (henv' : env'.options = o) (hg : g.Blind key)
    (node : NodeId) {x y : Signal} (hxy : key x = key y) :
    PartsAlike o T (fun v v' => v.gist = v'.gist) (env.deliver g node x)
      (env'.deliver g node y) := by
  unfold deliver
  cases hn : g.get? node with
  | none => exact .pure (Eq.refl _)
  | some n =>
    simp only
    cases hs : n.step? with
    | none => exact .pure (Eq.refl _)
    | some s =>
      have hkind : n.kind = .step s := by
        unfold Node.step? at hs
        split at hs
        · next hkind => rw [hkind, Option.some.inj hs]
        · simp at hs
      refine .bind (V := fun _ _ => True) (.read fun _ _ _ => trivial) fun t t' _ => ?_
      refine .bind (.call none (onBoard_agree (o := o) ((hg node n s hn hkind).onSignal x y hxy))
        fun _ _ _ h => by simp at h) fun ending ending' hending => ?_
      subst hending
      cases ending with
      | finished r => exact settle_alike henv henv' node s n.next t t' r 1
      | crashed m => exact settle_alike henv henv' node s n.next t t' _ 1
      | timedOut | cancelled => exact stop_left

end Environment

end DurableWorkflow

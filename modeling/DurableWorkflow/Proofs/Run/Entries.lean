import DurableWorkflow.Proofs.Graph.Flow
import DurableWorkflow.Proofs.Run.Keeps
import DurableWorkflow.Proofs.Walk.Does

/-!
# What comes of a visit

The entries that a visit leaves are about its node and, where branches have run, about nodes of
their ranges. Flow goes on only if all of them tell of successes. A failure tells of the first entry
that does not, or the engine itself has failed; in a branch that entry may be of a step that waits
for a signal. A visit that waits has one entry, which says so (`Visited.Of`).

The steps that a walk executes are at nodes of its own range (`Tends`).
-/

namespace DurableWorkflow

variable {C H X ω : Type}

/-- What is said of an entry that is no success. -/
inductive Graph.Fault (g : Graph C H) (t : StepTrace) : Failure → Prop
  | failed {message : String} {shouldRetry : Bool} (h : t.outcome = .failed message shouldRetry) :
    Fault g t ⟨some t.step, some t.node, t.attempts, message⟩
  | stranded {signal : String} (h : t.outcome = .suspended signal) :
    Fault g t (g.strandedFailure t.node signal)

/-- The failure is about the first entry that is no success, unless the engine has failed. -/
def Graph.Blames (g : Graph C H) (entries : List StepTrace) (f : Failure) : Prop :=
  (∃ label node message, f = .ofEngine label node message) ∨
    ∃ before t after, entries = before ++ t :: after ∧ (∀ u ∈ before, u.outcome = .succeeded) ∧
      g.Fault t f

/-- The report of a branch between `lo` and `hi`. -/
structure Report.Tells (g : Graph C H) (lo hi : Nat) (r : Report) : Prop where
  within : r.isCancelled = false → ∀ t ∈ r.trace, lo ≤ t.node ∧ t.node < hi
  drained : r.halt = .drained → ∀ t ∈ r.trace, t.outcome = .succeeded
  failed : ∀ f, r.halt = .failed f → g.Blames r.trace f
  ends : r.halt = .drained ∨ r.isCancelled = true ∨ ∃ f, r.halt = .failed f

/-- What may come of the node `x`, whose branches lie before `hi`. -/
structure Visited.Of (g : Graph C H) (x hi : Nat) (v : Visited) : Prop where
  within : ∀ t ∈ v.trace, x ≤ t.node ∧ t.node < hi
  onward : ∀ nodes, v.turn = .onward nodes →
    (∃ n, g.get? x = some n ∧ n.Onward nodes) ∧ ∀ t ∈ v.trace, t.outcome = .succeeded
  failed : ∀ f, v.turn = .failed f → g.Blames v.trace f
  suspended : ∀ signal limit, v.turn = .suspended signal limit →
    ∃ t, v.trace = [t] ∧ t.node = x ∧ t.outcome = .suspended signal

/-- All that an action at a node of the graph can be is an `I`, if the steps that are executed are
at nodes `A`. -/
structure Environment.Tends (env : Environment C H X ω) (g : Graph C H) (A : Nat → Prop)
    (I : Board C H X × ω → Board C H X × ω → Prop) : Prop extends env.About g I where
  execute : ∀ (node : Nat) (n : Node C H) (s : Step C H), A node → g.get? node = some n →
    n.kind = .step s → (env.onBoard s.execute).Keeps I

variable {g : Graph C H} {lo hi x e first : Nat} {steady : Bool} {heads : List Nat}
  {next : Option NodeId} {entries : List StepTrace} {f : Failure} {n : Node C H}

theorem Graph.Blames.append (h : g.Blames entries f) (l : List StepTrace) :
    g.Blames (entries ++ l) f := by
  obtain hengine | ⟨before, t, after, rfl, hbefore, hfault⟩ := h
  · exact .inl hengine
  · exact .inr ⟨before, t, after ++ l, by simp, hbefore, hfault⟩

theorem Graph.Blames.after (h : g.Blames entries f) {l : List StepTrace}
    (hl : ∀ t ∈ l, t.outcome = .succeeded) : g.Blames (l ++ entries) f := by
  obtain hengine | ⟨before, t, after, rfl, hbefore, hfault⟩ := h
  · exact .inl hengine
  · refine .inr ⟨l ++ before, t, after, by simp, fun u hu => ?_, hfault⟩
    exact (List.mem_append.1 hu).elim (hl u) (hbefore u)

/-! ### Values -/

namespace Visited.Of

theorem engineFailure (label : String) (node : NodeId) (message : String) :
    Visited.Of g x hi (.engineFailure label node message) := by
  refine ⟨by simp [Visited.engineFailure], by simp [Visited.engineFailure], fun f hf => ?_,
    by simp [Visited.engineFailure]⟩
  cases hf
  exact .inl ⟨label, node, message, rfl⟩

theorem ofOnward (hn : g.get? x = some n) {nodes : List Nat} (h : n.Onward nodes) :
    Visited.Of g x hi (.onward nodes) := by
  refine ⟨by simp [Visited.onward], fun nodes' hnodes => ?_, by simp [Visited.onward],
    by simp [Visited.onward]⟩
  cases hnodes
  exact ⟨⟨n, hn, h⟩, by simp [Visited.onward]⟩

end Visited.Of

/-- The first report that failed is what the block fails with. -/
theorem Report.Tells.blames {reports : List Report} (h : ∀ r ∈ reports, r.Tells g lo hi)
    (hcalm : ∀ r ∈ reports, r.isCancelled = false)
    (hf : reports.findSome? Report.failure? = some f) :
    g.Blames (reports.flatMap (·.trace)) f := by
  induction reports with
  | nil => simp at hf
  | cons r rs ih =>
    obtain ⟨hr, hrs⟩ := List.forall_mem_cons.1 h
    obtain ⟨hcalm, hcalms⟩ := List.forall_mem_cons.1 hcalm
    rw [List.flatMap_cons]
    rw [List.findSome?_cons] at hf
    obtain hdrained | hcancelled | ⟨f', hf'⟩ := hr.ends
    · rw [Report.failure?, hdrained] at hf
      exact (ih hrs hcalms hf).after (hr.drained hdrained)
    · rw [hcancelled] at hcalm
      simp at hcalm
    · rw [Report.failure?, hf'] at hf
      cases hf
      exact (hr.failed f hf').append _

theorem Environment.join_of {reports : List Report} (h : ∀ r ∈ reports, r.Tells g x hi)
    (hcalm : ∀ r ∈ reports, r.isCancelled = false) (hn : g.get? x = some n)
    (honward : n.Onward n.next.toList) : (join reports n.next).Of g x hi := by
  refine ⟨fun t ht => ?_, fun nodes hnodes => ?_, fun f hf => ?_, fun signal limit hs => ?_⟩
  · obtain ⟨r, hr, ht⟩ := List.mem_flatMap.1 ht
    exact (h r hr).within (hcalm r hr) t ht
  · simp only [join] at hnodes
    split at hnodes
    · simp at hnodes
    · next hnone =>
      -- No branch has failed and none was cancelled, so each has come to its end.
      cases hnodes
      refine ⟨⟨n, hn, honward⟩, fun t ht => ?_⟩
      obtain ⟨r, hr, ht⟩ := List.mem_flatMap.1 ht
      obtain hdrained | hcancelled | ⟨f, hf⟩ := (h r hr).ends
      · exact (h r hr).drained hdrained t ht
      · rw [hcalm r hr] at hcancelled
        simp at hcancelled
      · have hfailure := List.findSome?_eq_none_iff.1 hnone r hr
        simp [Report.failure?, hf] at hfailure
  · simp only [join] at hf
    split at hf
    · next hsome =>
      cases hf
      exact Report.Tells.blames h hcalm hsome
    · simp at hf
  · simp only [join] at hs
    split at hs <;> simp at hs

/-! ### Visits -/

namespace Environment

variable {env : Environment C H X ω} {A : Nat → Prop} {I : Board C H X × ω → Board C H X × ω → Prop}
  {branch : NodeId → Walk (Board C H X × ω) Report}

theorem settle_brings (h : env.About g I) {s : Step C H} (hn : g.get? x = some n)
    (hkind : n.kind = .step s) (startedAt : Timestamp) (r : StepResult) (k : Nat) (hx : x < hi) :
    (env.settle x s n.next startedAt r k).Brings Report.Stopped I (Visited.Of g x hi) := by
  have hs : (x, s) ∈ g.steps := Graph.mem_steps hn (by rw [Node.step?, hkind])
  refine (read_keeps h.atNode _).brings.bind fun completedAt _ => ?_
  cases houtcome : r.outcome with
  | success =>
    refine .bind (Piece.Keeps.brings (.modify ?_)) fun _ _ =>
      (announcing_keeps h.atNode _).brings.bind fun _ _ =>
        (trackContextSize_keeps h.atNode).brings.bind fun _ _ => .pure ⟨?_, ?_, by simp, by simp⟩
    · exact fun b => h.enter x s b.1 b.2 hs
    · simpa using hx
    · intro nodes hnodes
      cases hnodes
      exact ⟨⟨n, hn, by simp only [Node.Onward, hkind]⟩, by simp [StepOutcome.toTrace]⟩
  | failure error shouldRetry =>
    refine .bind (Piece.Keeps.brings (counting_keeps h.atNode ?_)) fun _ _ =>
      .pure ⟨?_, by simp, ?_, by simp⟩
    · exact fun _ => rfl
    · simpa using hx
    · intro f hf
      cases hf
      exact .inr ⟨[], _, [], rfl, by simp, .failed rfl⟩
  | suspended signal limit =>
    refine .pure ⟨?_, by simp, by simp, ?_⟩
    · simpa using hx
    · intro signal' limit' hs
      cases hs
      exact ⟨_, rfl, rfl, rfl⟩

theorem choose_brings (h : env.About g I) {holds : Predicate C} {t f : Option NodeId}
    (hn : g.get? x = some n) (hkind : n.kind = .conditional holds t f) :
    (choose x holds t f n.next : Part C H X ω Visited).Brings Report.Stopped I
      (Visited.Of g x hi) := by
  refine (read_keeps h.atNode _).brings.bind fun verdict _ => ?_
  cases verdict with
  | error m => exact .pure (.engineFailure ..)
  | ok b =>
    refine .pure (.ofOnward hn ?_)
    simp only [Node.Onward, hkind]
    cases b
    · exact .inr rfl
    · exact .inl rfl

theorem runParallel_brings (h : env.About g I) {children : List NodeId} (hn : g.get? x = some n)
    (hkind : n.kind = .parallel children)
    (hbranch : ∀ c ∈ children, (branch c).Does I (Report.Tells g x hi)) :
    (env.runParallel branch children n.next).Brings Report.Stopped I (Visited.Of g x hi) := by
  refine .bind (.fork (Report.Tells g x hi) fun w hw => ?_) fun reports hreports =>
    (read_keeps h.atNode _).brings.bind fun cancelled _ => ?_
  · obtain ⟨c, hc, rfl⟩ := List.mem_map.1 hw
    exact hbranch c hc
  · split
    · exact .halt rfl
    · next hcalm =>
      simp only [Bool.or_eq_true, List.any_eq_true, not_or, not_exists, not_and,
        Bool.not_eq_true] at hcalm
      exact .pure (join_of hreports hcalm.2 hn (by simp only [Node.Onward, hkind]))

theorem enter_brings (h : env.Tends g A I) (hA : A x) (hx : x < hi) (hn : g.get? x = some n)
    (hbranch : ∀ children, n.kind = .parallel children →
      ∀ c ∈ children, (branch c).Does I (Report.Tells g x hi)) :
    (env.enter branch x n).Brings Report.Stopped I (Visited.Of g x hi) := by
  unfold enter
  cases hkind : n.kind with
  | step s =>
    have hattempts := attempts_keeps h.toAbout.atNode (h.execute x n s hA hn hkind) x
      (s.retryPolicy.getD env.options.retry)
      ((s.retryPolicy.getD env.options.retry).maxAttempts - 1) 1
    exact (read_keeps h.toAbout.atNode _).brings.bind fun startedAt _ => hattempts.brings.bind fun y _ =>
      settle_brings h.toAbout hn hkind startedAt y.1 y.2 hx
  | sequence children => exact .pure (.ofOnward hn (by simp only [Node.Onward, hkind]))
  | conditional holds t f => exact choose_brings h.toAbout hn hkind
  | parallel children => exact runParallel_brings h.toAbout hn hkind (hbranch children hkind)
  | delay d =>
    exact (resting_keeps d).brings.bind fun _ _ =>
      .pure (.ofOnward hn (by simp only [Node.Onward, hkind]))

theorem visit_brings (h : env.Tends g A I) (hA : A x) (hx : x < hi)
    (hbranch : ∀ n children, g.get? x = some n → n.kind = .parallel children →
      ∀ c ∈ children, (branch c).Does I (Report.Tells g x hi)) :
    (env.visit g branch x).Brings Report.Stopped I (Visited.Of g x hi) := by
  refine .bind (V := fun _ => True) (.update (fun s => ?_) fun _ => trivial) fun admission _ => ?_
  · simp only [countVisit]
    split <;> exact h.board s.1 _ s.2 ⟨rfl, rfl, rfl, rfl⟩
  · cases admission with
    | cancelled => exact .halt rfl
    | refused => exact .pure (.engineFailure ..)
    | admitted =>
      simp only
      split
      · exact .pure (.engineFailure ..)
      · next n hn => exact enter_brings h hA hx hn (hbranch n · hn)

theorem deliver_brings (h : env.About g I) (signal : Signal)
    (hwork : ∀ n s, g.get? x = some n → n.kind = .step s → (env.onBoard (s.onSignal signal)).Keeps I)
    (hx : x < hi) :
    (env.deliver g x signal).Brings Report.Stopped I (Visited.Of g x hi) := by
  unfold deliver
  split
  · exact .pure (.engineFailure ..)
  · next n hn =>
    split
    · exact .pure (.engineFailure ..)
    · next s hs =>
      have hkind := Node.kind_of_step hs
      refine (read_keeps h.atNode _).brings.bind fun startedAt _ =>
        .bind (.call none (hwork n s hn hkind)) fun ending _ => ?_
      cases ending with
      | finished r => exact settle_brings h hn hkind startedAt r 1 hx
      | crashed m => exact settle_brings h hn hkind startedAt _ 1 hx
      | timedOut | cancelled => exact .halt rfl

/-! ### Stacks -/

variable {l : List Nat}

/-- What comes of the first node of a stack, and the stack with which the walk goes on. -/
theorem visit_stack (h : env.Tends g A I) (htract : g.Tract steady heads 0 g.size next)
    (hstack : g.Apart (x :: l) first hi) (hA : A x) (branch : NodeId → Walk (Board C H X × ω) Report)
    (hbranch : ∀ c e, e ≤ hi → g.Apart [c] (x + 1) e → (branch c).Does I (Report.Tells g x e)) :
    ∃ e, x < e ∧ e ≤ hi ∧ (env.visit g branch x).Brings Report.Stopped I (Visited.Of g x e) ∧
      ∀ n nodes, g.get? x = some n → n.Onward nodes → g.Apart (nodes ++ l) e hi := by
  have hx := (hstack.mem (List.mem_cons_self ..)).2
  cases hn : g.get? x with
  | none =>
    refine ⟨x + 1, Nat.lt_succ_self _, hx, ?_, by simp⟩
    exact visit_brings h hA (Nat.lt_succ_self _) (by simp [hn])
  | some n =>
    obtain ⟨e, hxe, he, hchildren, honward⟩ := htract.onward hstack hn
    refine ⟨e, hxe, he, visit_brings h hA hxe fun k children hk hkind c hc => ?_,
      fun k nodes hk => ?_⟩
    · rw [hn] at hk
      cases hk
      exact hbranch c e he ((hchildren children hkind).single hc)
    · cases hk
      exact honward nodes

/-- The walk of a branch executes steps of its own range, and tells of them. -/
theorem walkBranch_does (h : env.Tends g A I) (htract : g.Tract steady heads 0 g.size next)
    (fuel : Nat) {nodes : List Nat} (hstack : g.Apart nodes first hi) (hlo : lo ≤ first)
    (hA : ∀ m : Nat, lo ≤ m → A m) {trace : List StepTrace}
    (htrace : ∀ t ∈ trace, (lo ≤ t.node ∧ t.node < hi) ∧ t.outcome = .succeeded) :
    (env.walkBranch g fuel nodes trace).Does I (Report.Tells g lo hi) := by
  -- A branch of a branch has a range of its own, and begins without entries.
  induction fuel generalizing nodes first lo hi trace with
  | zero =>
    cases nodes with
    | nil =>
      exact ⟨fun _ t ht => (htrace t ht).1, fun _ t ht => (htrace t ht).2, by simp, .inl rfl⟩
    | cons x l =>
      refine ⟨fun _ t ht => (htrace t ht).1, by simp, fun f hf => ?_, .inr (.inr ⟨_, rfl⟩)⟩
      cases hf
      exact .inl ⟨_, _, _, rfl⟩
  | succ fuel ih =>
    cases nodes with
    | nil =>
      exact ⟨fun _ t ht => (htrace t ht).1, fun _ t ht => (htrace t ht).2, by simp, .inl rfl⟩
    | cons x l =>
      have hx := hstack.mem (List.mem_cons_self ..)
      obtain ⟨e, hxe, he, hvisit, honward⟩ := visit_stack h htract hstack (hA x (by omega))
        (fun child => env.walkBranch g fuel [child] []) fun c e _ hc =>
          ih hc (Nat.le_succ x) (fun m hm => hA m (by omega)) (by simp)
      rw [walkBranch]
      refine hvisit.does (fun r hr => ?_) fun v hv => ?_
      · have hhalt : r.halt = .cancelled := beq_iff_eq.1 hr
        exact ⟨fun hcalm => by rw [hr] at hcalm; simp at hcalm, by simp [hhalt], by simp [hhalt],
          .inr (.inl hr)⟩
      · have hwithin : ∀ t ∈ trace ++ v.trace, lo ≤ t.node ∧ t.node < hi := by
          intro t ht
          rcases List.mem_append.1 ht with ht | ht
          · exact (htrace t ht).1
          · have hrange := hv.within t ht
            exact ⟨Nat.le_trans (by omega) hrange.1, Nat.lt_of_lt_of_le hrange.2 he⟩
        have hearlier : ∀ t ∈ trace, t.outcome = .succeeded := fun t ht => (htrace t ht).2
        simp only
        split
        · next nodes hturn =>
          obtain ⟨⟨n, hn, hnodes⟩, hdone⟩ := hv.onward nodes hturn
          refine ih (honward n nodes hn hnodes) (by omega) hA fun t ht => ⟨hwithin t ht, ?_⟩
          exact (List.mem_append.1 ht).elim (hearlier t) (hdone t)
        · next f hturn =>
          refine ⟨fun _ => hwithin, by simp, fun f' hf' => ?_, .inr (.inr ⟨_, rfl⟩)⟩
          cases hf'
          exact (hv.failed f hturn).after hearlier
        · next signal limit hturn =>
          obtain ⟨t, htrace', hnode, houtcome⟩ := hv.suspended signal limit hturn
          refine ⟨fun _ => hwithin, by simp, fun f' hf' => ?_, .inr (.inr ⟨_, rfl⟩)⟩
          cases hf'
          refine .inr ⟨trace, t, [], by rw [htrace'], hearlier, ?_⟩
          exact hnode ▸ .stranded houtcome

end Environment

end DurableWorkflow

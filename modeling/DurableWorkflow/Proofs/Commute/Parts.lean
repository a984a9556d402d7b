import DurableWorkflow.Proofs.Commute.Branch
import Mathlib.Algebra.BigOperators.Group.List.Basic
import Mathlib.Tactic.Abel

/-!
# What a walk shows of itself

A walk shows a plot if, while the run is quiet, each of its steps either leaves alone what the
plot is about or is the next action of the plot. The entries of a branch are reported when it
ends; until then the walk carries them with it, and they are noted beside it.

Hence any interleaving of the branches of a walk is one of the branches of its plot
(`Shows.interleaves`).
-/

namespace DurableWorkflow

variable {C H M X ω : Type}

/-- The entries in whatever order, without their times. -/
def gists (trace : List StepTrace) : Multiset Gist := trace.map (·.gist)

namespace Report

/-- Did the branch come to its end without a failure? -/
def isDrained (r : Report) : Bool := r.halt == .drained

/-- The branch came to its end, or failed. -/
def Ended (r : Report) : Prop := r.halt = .drained ∨ ∃ f, r.halt = .failed f

end Report

namespace Environment

variable (env : Environment C H X ω) (pass : Nanos → Nanos → Option Nanos) (a : Aspect C H M)

/-- What branches have left behind at `s`, with these entries. -/
def harvest (s : Board C H X × ω) (entries : Multiset Gist) : Harvest C H M :=
  ⟨(s.1.context, a.see (env.memory s.2)), s.1.ledger.completed, entries⟩

/-- The walk, which carries the entries `noted` with it, shows the plot. -/
inductive Shows : Multiset Gist → Walk (Board C H X × ω) Report → Plot (Harvest C H M) → Prop
  | done {r : Report} (h : r.Ended) : Shows (gists r.trace) (.done r) (.done r.isDrained)
  /-- The next step leaves everything as it is. -/
  | silent {noted : Multiset Gist} {w : Walk (Board C H X × ω) Report} {p : Plot (Harvest C H M)}
    (hw : ∀ r, w ≠ .done r)
    (hsame : ∀ s w' s', env.Quiet s → Walk.Move pass (w, s) (w', s') → env.Quiet s' →
      ∀ e, env.harvest a s' e = env.harvest a s e)
    (h : ∀ s w' s', env.Quiet s → Walk.Move pass (w, s) (w', s') → env.Quiet s' →
      Shows noted w' p) : Shows noted w p
  /-- The next step is an action of the plot, and notes `more` entries. -/
  | act (more : Multiset Gist) {noted : Multiset Gist} {w : Walk (Board C H X × ω) Report}
    {f : Harvest C H M → Harvest C H M} {rest : Harvest C H M → Plot (Harvest C H M)}
    (hw : ∀ r, w ≠ .done r)
    (hsame : ∀ s w' s', env.Quiet s → Walk.Move pass (w, s) (w', s') → env.Quiet s' →
      ∀ e, env.harvest a s' (e + more) = f (env.harvest a s e))
    (h : ∀ s w' s', env.Quiet s → Walk.Move pass (w, s) (w', s') → env.Quiet s' →
      ∀ e, Shows (noted + more) w' (rest (env.harvest a s e))) : Shows noted w (.act f rest)
  /-- Each branch shows a branch of the plot, and what follows shows the rest of it unless a
  branch has failed. -/
  | fork {noted : Multiset Gist} {ws : List (Walk (Board C H X × ω) Report)}
    {rest : List Report → Walk (Board C H X × ω) Report} {ps : List (Plot (Harvest C H M))}
    {p : Plot (Harvest C H M)} (base : Multiset Gist)
    (branches : List (Multiset Gist × Walk (Board C H X × ω) Report × Plot (Harvest C H M)))
    (hws : ws = branches.map (·.2.1)) (hps : ps = branches.map (·.2.2))
    (hnoted : noted = base + (branches.map (·.1)).sum)
    (hall : ∀ b ∈ branches, Shows b.1 b.2.1 b.2.2)
    (hrest : ∀ rs : List Report, (∀ r ∈ rs, r.Ended) →
      Shows (base + (rs.map fun r => gists r.trace).sum) (rest rs)
        (if rs.all Report.isDrained then p else .done false)) :
    Shows noted (.fork ws rest) (.fork ps p)

variable {env pass a} {noted : Multiset Gist} {w w' : Walk (Board C H X × ω) Report}
  {p : Plot (Harvest C H M)} {s s' t : Board C H X × ω}

theorem Shows.of_done {r : Report} (h : env.Shows pass a noted (.done r) p) :
    r.Ended ∧ noted = gists r.trace ∧ p = .done r.isDrained := by
  cases h with
  | done h => exact ⟨h, rfl, rfl⟩
  | silent hw | act _ hw => exact absurd rfl (hw r)

end Environment

theorem Walk.Move.of_fork {σ ρ : Type} {pass : Nanos → Nanos → Option Nanos}
    {ws : List (Walk σ ρ)} {rest : List ρ → Walk σ ρ} {w' : Walk σ ρ} {s s' : σ}
    (h : Walk.Move pass (.fork ws rest, s) (w', s')) :
    (∃ before after w v, ws = before ++ w :: after ∧ Walk.Move pass (w, s) (v, s') ∧
      w' = .fork (before ++ v :: after) rest) ∨
    (∃ before after r, ws = before ++ .done r :: after ∧ s' = s ∧
      w' = .fork (before ++ after) fun rs => rest (r :: rs)) ∨
    ws = [] ∧ s' = s ∧ w' = rest [] := by
  cases h with
  | branch before after _ h => exact .inl ⟨before, after, _, _, rfl, h, rfl⟩
  | report before after r => exact .inr (.inl ⟨before, after, r, rfl, rfl, rfl⟩)
  | join => exact .inr (.inr ⟨rfl, rfl, rfl⟩)

namespace Environment

variable {env : Environment C H X ω} {pass : Nanos → Nanos → Option Nanos} {a : Aspect C H M}
  {noted : Multiset Gist} {w w' : Walk (Board C H X × ω) Report}
  {p : Plot (Harvest C H M)} {s s' t : Board C H X × ω}

/-- A step of the walk is a step of the plot, or none. -/
theorem Shows.move (h : env.Shows pass a noted w p) (hs : env.Quiet s)
    (hmove : Walk.Move pass (w, s) (w', s')) (hs' : env.Quiet s') (e : Multiset Gist) :
    ∃ more p', env.Shows pass a (noted + more) w' p' ∧
      Plot.Steps (p, env.harvest a s e) (p', env.harvest a s' (e + more)) := by
  induction h generalizing s w' s' with
  | done => cases hmove
  | @silent noted w p _ hsame h =>
    refine ⟨0, p, ?_, ?_⟩
    · rw [add_zero]
      exact h s w' s' hs hmove hs'
    · rw [add_zero, hsame s w' s' hs hmove hs']
  | @act more noted w f rest _ hsame h =>
    refine ⟨more, rest (env.harvest a s e), h s w' s' hs hmove hs' e, .single ?_⟩
    exact ⟨f, .act f rest _, hsame s w' s' hs hmove hs' e⟩
  | @fork noted ws rest ps p base branches hws hps hnoted hall hrest ih =>
    rcases hmove.of_fork with ⟨before, after, w, v, hsplit, hturn, rfl⟩ |
      ⟨before, after, r, hsplit, rfl, rfl⟩ | ⟨hnil, rfl, rfl⟩
    · -- The branch that moves and its plot stand at the same place of the two lists.
      obtain ⟨bs, bs', rfl, rfl, hbs'⟩ := List.map_eq_append_iff.1 (hws.symm.trans hsplit)
      obtain ⟨b, bs', rfl, rfl, rfl⟩ := List.map_eq_cons_iff.1 hbs'
      obtain ⟨more, q, hq, hsteps⟩ := ih b (by simp) hs hturn hs'
      refine ⟨more, _, .fork base (bs ++ (b.1 + more, v, q) :: bs') (by simp) rfl ?_
        (Plot.forall_mem_replaced hall hq) hrest, ?_⟩
      · simp only [hnoted, List.map_append, List.map_cons, List.sum_append, List.sum_cons]
        abel
      · subst hps
        simpa using hsteps.branch
    · -- Its entries go over to `base`, and after a failure the rest is but a bad end.
      obtain ⟨bs, bs', rfl, rfl, hbs'⟩ := List.map_eq_append_iff.1 (hws.symm.trans hsplit)
      obtain ⟨b, bs', rfl, hr, rfl⟩ := List.map_eq_cons_iff.1 hbs'
      have hb : env.Shows pass a b.1 (.done r) b.2.2 := hr ▸ hall b (by simp)
      obtain ⟨hended, hentries, hp⟩ := hb.of_done
      refine ⟨0, _, .fork (base + gists r.trace) (bs ++ bs') (by simp) rfl ?_
        (Plot.forall_mem_dropped hall) (p := if r.isDrained then p else .done false)
        fun rs hrs => ?_, ?_⟩
      · simp only [hnoted, List.map_append, List.map_cons, List.sum_append, List.sum_cons, hentries]
        abel
      · have hall := hrest (r :: rs) (List.forall_mem_cons.2 ⟨hended, hrs⟩)
        rw [List.map_cons, List.sum_cons, ← add_assoc, List.all_cons] at hall
        cases hr : r.isDrained with
        | true => simpa [hr] using hall
        | false => simpa [hr] using hall
      · subst hps
        rw [add_zero, List.map_append, List.map_cons, hp, List.map_append]
        exact .single ⟨id, .report _ _ p r.isDrained _, rfl⟩
    · obtain rfl := List.map_eq_nil_iff.1 (hws.symm.trans hnil)
      have hall := hrest [] (by simp)
      simp only [List.map_nil, List.sum_nil, List.all_nil, if_true] at hall hnoted
      subst hps hnoted
      refine ⟨0, p, ?_, ?_⟩
      · rwa [add_zero]
      · rw [add_zero]
        exact .single ⟨id, .join p _, rfl⟩

/-- An interleaving of the walk is an interleaving of the plot. -/
theorem Shows.interleaves (h : env.Shows pass a noted w p) (hs : env.Quiet s)
    {x : Walk (Board C H X × ω) Report × Board C H X × ω} (hx : env.Interleaves pass (w, s) x)
    (e : Multiset Gist) :
    ∃ more q, env.Shows pass a (noted + more) x.1 q ∧
      Plot.Steps (p, env.harvest a s e) (q, env.harvest a x.2 (e + more)) ∧ env.Quiet x.2 := by
  induction hx with
  | refl =>
    refine ⟨0, p, ?_, ?_, hs⟩
    · rwa [add_zero]
    · rw [add_zero]
  | tail _ hstep ih =>
    obtain ⟨more, q, hq, hsteps, hquiet⟩ := ih
    obtain ⟨htick, hquiet'⟩ := hstep
    cases htick with
    | move hmove =>
      obtain ⟨more', q', hq', hsteps'⟩ := hq.move hquiet hmove hquiet' (e + more)
      refine ⟨more + more', q', ?_, ?_, hquiet'⟩
      · rwa [← add_assoc]
      · rw [← add_assoc]
        exact hsteps.trans hsteps'
    | beside w b hmemory =>
      refine ⟨more, q, hq, ?_, hquiet'⟩
      simp only [harvest, hmemory] at hsteps ⊢
      exact hsteps

/-- However its branches take turns, a walk that shows an orderly plot ends well or badly as the
plot does, and leaves behind what the plot leaves behind. -/
theorem Shows.ends (h : env.Shows pass a 0 w p) (hp : p.Orderly) (hs : env.Quiet s) {r : Report}
    (hr : env.Interleaves pass (w, s) (.done r, t)) :
    r.Ended ∧ p.run (env.harvest a s 0) = (r.isDrained, env.harvest a t (gists r.trace)) := by
  obtain ⟨more, q, hq, hsteps, -⟩ := h.interleaves hs hr 0
  obtain ⟨hended, hentries, rfl⟩ := hq.of_done
  refine ⟨hended, ?_⟩
  rw [hentries] at hsteps
  exact (hp.steps hsteps).1

end Environment

end DurableWorkflow

/-!
### The parts of a branch show their plots

What a branch does at its nodes, part by part. Clocks, events, counts and questions whether the run
has been cancelled do not show; the actions of a step do, and so does what its end puts into the
books.
-/

namespace DurableWorkflow

variable {C H M X ω : Type}

theorem gists_nil : gists [] = 0 := rfl

theorem gists_append (a b : List StepTrace) : gists (a ++ b) = gists a + gists b := by
  simp only [gists, List.map_append, Multiset.coe_add]

theorem gists_flatMap (rs : List Report) :
    gists (rs.flatMap (·.trace)) = (rs.map fun r => gists r.trace).sum := by
  induction rs with
  | nil => rfl
  | cons r rs ih => rw [List.flatMap_cons, gists_append, ih, List.map_cons, List.sum_cons]

/-- The turns that flow may take at the node. -/
def Node.Turns (n : Node C H) : Turn → Prop
  | .onward next => n.Onward next
  | .failed _ => True
  | .suspended .. => ∃ s, n.kind = .step s

namespace Environment

variable {env : Environment C H X ω} {pass : Nanos → Nanos → Option Nanos} {a : Aspect C H M}
  {noted : Multiset Gist} {p : Plot (Harvest C H M)}

/-! ### What does not show -/

theorem Shows.unseen {f : Board C H X × ω → Board C H X × ω}
    {rest : Board C H X × ω → Walk (Board C H X × ω) Report}
    (hsame : ∀ s e, env.harvest a (f s) e = env.harvest a s e)
    (h : ∀ s, env.Quiet s → env.Quiet (f s) → env.Shows pass a noted (rest s) p) :
    env.Shows pass a noted (.act f rest) p := by
  refine .silent (by simp) (fun s w' s' hs hmove hs' e => ?_) fun s w' s' hs hmove hs' => ?_
  · cases hmove with
    | act => exact hsame s e
  · cases hmove with
    | act => exact h s hs hs'

theorem Shows.still {w : Walk (Board C H X × ω) Report} (hw : ∀ r, w ≠ .done r)
    (h : ∀ s w' s', Walk.Move pass (w, s) (w', s') → s' = s ∧ env.Shows pass a noted w' p) :
    env.Shows pass a noted w p := by
  refine .silent hw (fun s w' s' _ hmove _ e => ?_) fun s w' s' _ hmove _ => ?_
  · rw [(h s w' s' hmove).1]
  · exact (h s w' s' hmove).2

theorem announcing_shows (henv : env.Remembers) (what : Happening)
    {k : Unit → Walk (Board C H X × ω) Report} (h : env.Shows pass a noted (k ()) p) :
    env.Shows pass a noted (env.announcing what k) p := by
  refine .unseen (fun s e => ?_) fun _ _ _ => h
  simp only [harvest, announce, henv.publish]

theorem counting_shows (f : Metrics → Metrics) {k : Unit → Walk (Board C H X × ω) Report}
    (h : env.Shows pass a noted (k ()) p) : env.Shows pass a noted (counting f k) p :=
  .unseen (fun _ _ => rfl) fun _ _ _ => h

theorem isCancelled_shows {k : Bool → Walk (Board C H X × ω) Report}
    (h : env.Shows pass a noted (k false) p) : env.Shows pass a noted (env.isCancelled k) p := by
  refine .unseen (fun _ _ => rfl) fun s hs _ => ?_
  simp only [hs.cancelled]
  exact h

theorem now_shows {k : Timestamp → Walk (Board C H X × ω) Report}
    (h : ∀ t, env.Shows pass a noted (k t) p) : env.Shows pass a noted (env.now k) p :=
  .unseen (fun _ _ => rfl) fun _ _ _ => h _

theorem resting_shows (d : Nanos) {k : Unit → Walk (Board C H X × ω) Report}
    (h : env.Shows pass a noted (k ()) p) : env.Shows pass a noted (resting d k) p := by
  refine .still (fun r hdone => nomatch hdone) fun s w' s' hmove => ?_
  cases hmove with
  | pause => exact ⟨rfl, h⟩

theorem trackContextSize_shows {k : Unit → Walk (Board C H X × ω) Report}
    (h : env.Shows pass a noted (k ()) p) : env.Shows pass a noted (env.trackContextSize k) p := by
  unfold trackContextSize
  split
  · refine .unseen (fun s e => ?_) fun _ _ _ => h
    simp only
    split <;> rfl
  · exact h

theorem judge_shows (henv : env.Remembers) {node : NodeId} {s : Step C H} {policy : RetryPolicy}
    {attempt : Nat} {r : StepResult} {k : Bool → Walk (Board C H X × ω) Report}
    (h : env.Shows pass a noted (k (s.mayRepeat policy attempt r.outcome)) p) :
    env.Shows pass a noted (env.judge node s policy attempt r k) p := by
  unfold judge
  cases hr : r.outcome with
  | success | suspended =>
    rw [hr] at h
    exact h
  | failure error shouldRetry =>
    rw [hr] at h
    exact announcing_shows henv _ h

/-! ### Steps -/

/-- An action of the walk that is the next action of the plot. -/
theorem Shows.next {f : Board C H X × ω → Board C H X × ω}
    {rest : Board C H X × ω → Walk (Board C H X × ω) Report} {f' : Harvest C H M → Harvest C H M}
    {rest' : Harvest C H M → Plot (Harvest C H M)} (more : Multiset Gist)
    (hsame : ∀ s e, env.harvest a (f s) (e + more) = f' (env.harvest a s e))
    (h : ∀ s e, env.Shows pass a (noted + more) (rest s) (rest' (env.harvest a s e))) :
    env.Shows pass a noted (.act f rest) (.act f' rest') := by
  refine .act more (by simp) (fun s w' s' _ hmove _ e => ?_) fun s w' s' _ hmove _ e => ?_
  · cases hmove with
    | act => exact hsame s e
  · cases hmove with
    | act => exact h s e

theorem call_shows (henv : env.Remembers) {work : Work (C × H) StepResult}
    {seen : Work (C × M) StepResult} (hwork : work.Seen a.see seen) (limit : Option Nanos)
    {k : CallEnd → Walk (Board C H X × ω) Report} {l : CallEnd → Plot (Harvest C H M)}
    (h : ∀ e, e ≠ .cancelled → env.Shows pass a noted (k e) (l e)) :
    env.Shows pass a noted (.call limit (env.onBoard work) k) (seen.plot pass l limit) := by
  induction hwork generalizing limit with
  | done r =>
    refine .still (by simp) fun s w' s' hmove => ?_
    cases hmove with
    | done => exact ⟨rfl, h _ (by simp)⟩
  | crash m =>
    refine .still (by simp) fun s w' s' hmove => ?_
    cases hmove with
    | crash => exact ⟨rfl, h _ (by simp)⟩
  | @act f f' rest rest' hf _ ih =>
    refine .act 0 (by simp) (fun s w' s' _ hmove _ e => ?_) fun s w' s' _ hmove _ e => ?_
    · cases hmove with
      | work =>
        have hstate := hf (s.1.context, env.memory s.2)
        simpa [harvest, Harvest.change, henv.set] using hstate
    · cases hmove with
      | work =>
        rw [add_zero]
        exact ih _ limit
  | sleep d _ ih =>
    rw [Work.plot]
    refine .still (by simp) fun s w' s' hmove => ?_
    cases hmove with
    | sleep _ _ _ hleft =>
      rw [hleft]
      exact ⟨rfl, ih _⟩
    | late _ _ _ hleft =>
      rw [hleft]
      exact ⟨rfl, h _ (by simp)⟩
  | awaitCancel =>
    cases limit with
    | none =>
      -- Nothing moves it but being cancelled.
      exact .still (by simp) fun s w' s' hmove => by cases hmove
    | some l =>
      refine .still (by simp) fun s w' s' hmove => ?_
      cases hmove with
      | await => exact ⟨rfl, h _ (by simp)⟩

theorem attempt_shows (henv : env.Remembers) {s : Step C H} (hs : s.execute.Seen a.see (a.work s))
    {k : StepResult → Walk (Board C H X × ω) Report} {l : CallEnd → Plot (Harvest C H M)}
    (h : ∀ e, env.Shows pass a noted (k (s.result e)) (l e)) :
    env.Shows pass a noted (env.attempt s k) ((a.work s).plot pass l s.limit) := by
  refine call_shows henv hs s.limit fun e he => ?_
  cases e with
  | finished r => exact isCancelled_shows (h (.finished r))
  | crashed m => exact isCancelled_shows (h (.crashed m))
  | timedOut => exact h .timedOut
  | cancelled => exact absurd rfl he

theorem attempts_shows (henv : env.Remembers) (node : NodeId) {s : Step C H}
    (hs : s.execute.Seen a.see (a.work s)) (policy : RetryPolicy) (spare attempt : Nat)
    {k : StepResult × Nat → Walk (Board C H X × ω) Report}
    {l : StepResult → Nat → Plot (Harvest C H M)}
    (h : ∀ r n, env.Shows pass a noted (k (r, n)) (l r n)) :
    env.Shows pass a noted (env.attempts node s policy spare attempt k)
      (s.plotAttempts pass a policy l spare attempt) := by
  induction spare generalizing attempt with
  | zero => exact attempt_shows henv hs fun e => judge_shows henv (h _ _)
  | succ spare ih =>
    refine attempt_shows henv hs fun e => judge_shows henv ?_
    cases s.mayRepeat policy attempt (s.result e).outcome with
    | false => exact h _ _
    | true =>
      simp only [if_true, Piece.bind_apply]
      exact counting_shows _ (resting_shows _ (ih (attempt + 1)))

/-- What follows a node shows `onward` where flow goes on, and a bad end elsewhere, after turns of
which `T` holds. -/
structure Follows (env : Environment C H X ω) (pass : Nanos → Nanos → Option Nanos)
    (a : Aspect C H M) (noted : Multiset Gist) (k : Visited → Walk (Board C H X × ω) Report)
    (T : Turn → Prop) (onward : List NodeId → Plot (Harvest C H M)) : Prop where
  onward : ∀ trace next, T (.onward next) →
    env.Shows pass a (noted + gists trace) (k ⟨trace, .onward next⟩) (onward next)
  failed : ∀ trace f, env.Shows pass a (noted + gists trace) (k ⟨trace, .failed f⟩) (.done false)
  suspended : ∀ trace signal limit, T (.suspended signal limit) →
    env.Shows pass a (noted + gists trace) (k ⟨trace, .suspended signal limit⟩) (.done false)

variable {k : Visited → Walk (Board C H X × ω) Report} {T : Turn → Prop}
  {onward : List NodeId → Plot (Harvest C H M)}

/-- Where a node has no entry of its own. -/
theorem Follows.passes (hk : env.Follows pass a noted k T onward) {next : List NodeId}
    (hnext : T (.onward next)) : env.Shows pass a noted (k (.onward next)) (onward next) := by
  have h := hk.onward [] next hnext
  rwa [gists_nil, add_zero] at h

theorem Follows.fails (hk : env.Follows pass a noted k T onward) (f : Failure) :
    env.Shows pass a noted (k { turn := .failed f }) (.done false) := by
  have h := hk.failed [] f
  rwa [gists_nil, add_zero] at h

theorem settle_shows (henv : env.Remembers) (node : NodeId) (s : Step C H) {next : Option NodeId}
    (startedAt : Timestamp) (r : StepResult) (n : Nat)
    (hk : env.Follows pass a noted k T onward) (hnext : T (.onward next.toList))
    (hsuspended : ∀ signal limit, T (.suspended signal limit)) :
    env.Shows pass a noted (env.settle node s next startedAt r n k)
      (s.plotEnd node (onward next.toList) r n) := by
  have hentry (t : Timestamp) : gists [⟨s.name, node, startedAt, t, r.outcome.toTrace, n⟩] =
      {s.gist node r n} := rfl
  refine .next {s.gist node r n} (fun x e => by simp [harvest, Harvest.change]) fun x e => ?_
  rw [← hentry (env.wall x.2)]
  cases hr : r.outcome with
  | success =>
    simp only
    refine .next 0 (fun x e => ?_) fun x e => ?_
    · simp [harvest, Harvest.change, Step.undoable]
    · rw [add_zero]
      exact announcing_shows henv _ (trackContextSize_shows (hk.onward _ _ hnext))
  | failure error shouldRetry =>
    simp only
    exact counting_shows _ (hk.failed _ _)
  | suspended signal limit =>
    simp only
    exact hk.suspended _ _ _ (hsuspended signal limit)

theorem runStep_shows (henv : env.Remembers) (node : NodeId) {s : Step C H}
    (hs : s.execute.Seen a.see (a.work s)) {next : Option NodeId}
    (hk : env.Follows pass a noted k T onward) (hnext : T (.onward next.toList))
    (hsuspended : ∀ signal limit, T (.suspended signal limit)) :
    env.Shows pass a noted (env.runStep node s next k)
      (s.plotAttempts pass a (s.retryPolicy.getD env.options.retry)
        (s.plotEnd node (onward next.toList))
        ((s.retryPolicy.getD env.options.retry).maxAttempts - 1) 1) := by
  simp only [runStep, Piece.bind_apply]
  refine now_shows fun t => attempts_shows henv node hs _ _ _ fun r n => ?_
  exact settle_shows henv node s t r n hk hnext hsuspended

/-! ### Nodes -/

theorem choose_shows (node : NodeId) (holds : Predicate C) (t e : Option NodeId)
    {next : Option NodeId} (hk : env.Follows pass a noted k T onward)
    (hnext : ∀ b : Bool, T (.onward ((if b then t else e).or next).toList)) :
    env.Shows pass a noted (choose node holds t e next k)
      (.act (.note 0 0) fun s => plotVerdict onward t e next (holds s.state.1)) := by
  refine .next 0 (fun x m => by simp [harvest, Harvest.change]) fun x m => ?_
  rw [add_zero]
  simp only [harvest]
  cases holds x.1.context with
  | ok b => exact hk.passes (hnext b)
  | error m => exact hk.fails _

/-- Where all branches came to their ends flow goes on. -/
theorem join_onward {reports : List Report} (h : reports.all Report.isDrained = true)
    (next : Option NodeId) : (join reports next).turn = .onward next.toList := by
  have hnone : reports.findSome? Report.failure? = none := by
    refine List.findSome?_eq_none_iff.2 fun r hr => ?_
    have hhalt : r.halt = .drained := eq_of_beq (List.all_eq_true.1 h r hr)
    rw [Report.failure?, hhalt]
  simp only [join, hnone]

/-- Where one of them did not, but all ended, a failure is what counts. -/
theorem join_failed {reports : List Report} (h : ∀ r ∈ reports, r.Ended)
    (hall : reports.all Report.isDrained = false) (next : Option NodeId) :
    ∃ f, (join reports next).turn = .failed f := by
  obtain ⟨r, hr, hdrained⟩ := List.all_eq_false.1 hall
  have hsome : (reports.findSome? Report.failure?).isSome := by
    refine List.findSome?_isSome_iff.2 ⟨r, hr, ?_⟩
    rcases h r hr with hhalt | ⟨f, hhalt⟩
    · simp [Report.isDrained, hhalt] at hdrained
    · rw [Report.failure?, hhalt]
      rfl
  obtain ⟨f, hf⟩ := Option.isSome_iff_exists.1 hsome
  exact ⟨f, by simp only [join, hf]⟩

theorem not_any_isCancelled {reports : List Report} (h : ∀ r ∈ reports, r.Ended) :
    reports.any Report.isCancelled = false := by
  rw [List.any_eq_false]
  intro r hr
  rcases h r hr with hhalt | ⟨f, hhalt⟩
  · simp [Report.isCancelled, hhalt]
  · simp [Report.isCancelled, hhalt]

theorem runParallel_shows {branch : NodeId → Walk (Board C H X × ω) Report}
    {plot : NodeId → Plot (Harvest C H M)} {children : List NodeId} {next : Option NodeId}
    (hbranch : ∀ child ∈ children, env.Shows pass a 0 (branch child) (plot child))
    (hk : env.Follows pass a noted k T onward) (hnext : T (.onward next.toList)) :
    env.Shows pass a noted (env.runParallel branch children next k)
      (.fork (children.map plot) (onward next.toList)) := by
  refine .fork noted (children.map fun child => (0, branch child, plot child)) (by simp)
    (by simp) ?_ (List.forall_mem_map.2 hbranch) fun rs hrs => ?_
  · simp [Function.comp_def]
  · -- The entries of the block are those of its branches in the order of their reports.
    refine isCancelled_shows ?_
    simp only [not_any_isCancelled hrs, Bool.or_false]
    have hjoin : join rs next = ⟨rs.flatMap (·.trace), (join rs next).turn⟩ := rfl
    show env.Shows pass a _ (k (join rs next)) _
    rw [← gists_flatMap, hjoin]
    cases hall : rs.all Report.isDrained with
    | true =>
      rw [join_onward hall]
      exact hk.onward _ _ hnext
    | false =>
      obtain ⟨f, hf⟩ := join_failed hrs hall next
      rw [hf]
      exact hk.failed _ f

theorem enter_shows (henv : env.Remembers) {branch : NodeId → Walk (Board C H X × ω) Report}
    {plot : NodeId → Plot (Harvest C H M)} (node : NodeId) {n : Node C H} (hn : n.Seen a)
    (hbranch : ∀ children, n.kind = .parallel children →
      ∀ child ∈ children, env.Shows pass a 0 (branch child) (plot child))
    (hk : env.Follows pass a noted k n.Turns onward) :
    env.Shows pass a noted (env.enter branch node n k)
      (n.plot pass a env.options.retry plot onward node) := by
  unfold enter Node.plot
  have honward (next : List NodeId) (h : n.Onward next) : n.Turns (.onward next) := h
  unfold Node.Onward at honward
  cases hkind : n.kind with
  | step s =>
    rw [hkind] at honward
    exact runStep_shows henv node (hn s hkind) hk (honward _ rfl) fun _ _ => ⟨s, hkind⟩
  | sequence children =>
    rw [hkind] at honward
    exact hk.passes (honward _ rfl)
  | conditional holds t e =>
    rw [hkind] at honward
    exact choose_shows node holds t e hk fun b => honward _ (by cases b <;> simp)
  | parallel children =>
    rw [hkind] at honward
    exact runParallel_shows (hbranch children hkind) hk (honward _ rfl)
  | delay d =>
    rw [hkind] at honward
    refine resting_shows d ?_
    exact hk.passes (honward _ rfl)

theorem countVisit_admitted {b : Board C H X} {v : ω} (hcancelled : env.cancelled v = false)
    (hvisits : b.visits + 1 ≤ env.options.maxNodeVisits) :
    env.countVisit (b, v) = (.admitted, { b with visits := b.visits + 1 }, v) := by
  simp only [countVisit, hcancelled, Bool.false_eq_true, if_false]
  rw [if_neg (Nat.not_lt.2 hvisits)]

theorem visit_shows {g : Graph C H} {branch : NodeId → Walk (Board C H X × ω) Report}
    {node : NodeId}
    (hnone : g.get? node = none → ∀ f, env.Shows pass a noted (k { turn := .failed f }) p)
    (hsome : ∀ n, g.get? node = some n → env.Shows pass a noted (env.enter branch node n k) p) :
    env.Shows pass a noted (env.visit g branch node k) p := by
  refine .unseen (fun s e => ?_) fun s hs hs' => ?_
  · unfold countVisit
    simp only
    split <;> rfl
  · have hvisits := hs'.visits
    simp only [countVisit, hs.cancelled, Bool.false_eq_true, if_false] at hvisits
    simp only [countVisit_admitted hs.cancelled hvisits]
    cases hn : g.get? node with
    | none => exact hnone hn _
    | some n => exact hsome n hn

theorem drained_shows (trace : List StepTrace) :
    env.Shows pass a (gists trace) (.done ⟨trace, .drained⟩) (.done true) :=
  .done (r := ⟨trace, .drained⟩) (.inl rfl)

theorem failed_shows (trace : List StepTrace) (f : Failure) :
    env.Shows pass a (gists trace) (.done ⟨trace, .failed f⟩) (.done false) :=
  .done (r := ⟨trace, .failed f⟩) (.inr ⟨f, rfl⟩)

/-- A branch shows its plot, if the steps that it may come to are what they look like. -/
theorem walkBranch_shows (henv : env.Remembers) {g : Graph C H} (fuel : Nat) {nodes : List NodeId}
    (hseen : ∀ x n, g.Ahead nodes x → g.get? x = some n → n.Seen a) (trace : List StepTrace) :
    env.Shows pass a (gists trace) (env.walkBranch g fuel nodes trace)
      (g.plot pass a env.options.retry fuel nodes) := by
  induction fuel generalizing nodes trace with
  | zero =>
    cases nodes with
    | nil => exact drained_shows trace
    | cons node ahead => exact failed_shows trace _
  | succ fuel ih =>
    cases nodes with
    | nil => exact drained_shows trace
    | cons node ahead =>
      rw [Graph.plot]
      refine visit_shows (fun hnone f => ?_) fun n hn => ?_
      · rw [hnone, List.append_nil]
        exact failed_shows trace f
      · rw [hn]
        refine enter_shows henv node (hseen node n ⟨node, List.mem_cons_self, .refl⟩ hn)
          (fun children hkind child hchild => ?_) ⟨fun more next hnext => ?_, fun more f => ?_,
            fun more signal limit _ => ?_⟩
        · exact ih (fun x m hx => hseen x m (hx.child hn hkind hchild)) []
        · rw [← gists_append]
          exact ih (fun x m hx => hseen x m (hx.onward hn hnext)) (trace ++ more)
        · rw [← gists_append]
          exact failed_shows _ f
        · rw [← gists_append]
          exact failed_shows _ _

end Environment

end DurableWorkflow

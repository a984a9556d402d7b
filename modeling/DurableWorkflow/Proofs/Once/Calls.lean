import DurableWorkflow.Proofs.Coordinator.Drive
import DurableWorkflow.Proofs.Coordinator.Heeds
import DurableWorkflow.Proofs.Instance.Move
import DurableWorkflow.Proofs.Once.Run

/-!
# Calls in custody

Starting an instance, delivering a signal to it, and resuming it. Every write stores a longer
history and an instance that is poised: the claim stores the version that was loaded, checkpoints
store what the run has done, and the last write stores all entries of the run.
-/

namespace DurableWorkflow

variable {C H R : Type}

/-- What a transition leaves alone. -/
structure Instance.Moved (s s' : Instance) : Prop where
  id : s'.id = s.id
  workflow : s'.workflow = s.workflow
  history : s'.history = s.history

theorem Instance.moved_of_transition {s s' : Instance} {target : Status} {now : Timestamp}
    (h : s.transition target now = .ok s') : s.Moved s' ∧ s'.status = target ∧
      s'.pending = s.pending ∧ (s.waitingNode = none → s'.waitingNode = none) := by
  unfold transition at h
  split at h
  · cases h
    exact ⟨⟨rfl, rfl, rfl⟩, rfl, rfl, fun hnone => by simp [hnone]⟩
  · simp at h

namespace Custody

variable {q : Custody C H R} {c : Coordinator C (H × Asks) R} {u last s : Instance}
  {books : List StepTrace} {w v : World R (H × Asks)} {start : StartPoint} {context : C}

/-! ### Runs -/

/-- What a run returns: the version in hand, and the entries of the run. -/
def Returns (q : Custody C H R) (u : Instance) (r : Instance × Option (RunResult C))
    (w : World R (H × Asks)) : Prop :=
  ∃ books, q.InHand u r.1 books w ∧ ∀ result ∈ r.2, result.trace = books ∧
    ∀ x, result.outcome = .suspended x → ∀ signal,
      q.graph.Clears (u.history ++ books) (.signal x.node x.pending signal)

/-- Undoing steps is no matter of the instance. -/
theorem conclude_returns (d : Definition C (H × Asks)) (begin : Nat)
    {board : Board C (H × Asks) Instance} {outcome : RunOutcome} (h : q.Carries u (board, w))
    (hparks : ∀ x, outcome = .suspended x → ∀ signal, q.graph.Clears
      (u.history ++ board.ledger.trace) (.signal x.node x.pending signal)) :
    ((c.environment q.id).conclude d begin board outcome).Heeds q.watch
      (fun y v => q.Returns u (y.1.extra, some y.2) v) w := by
  refine (Environment.conclude_heeds (P := q.watch)
      (F := fun own v => q.InHand u own.extra own.ledger.trace v ∧
        own.ledger.trace = board.ledger.trace) (fun own v v' h hv => ⟨h.1.aside hv, h.2⟩)
      (fun e v => .of_aside ⟨rfl, rfl⟩) (fun own e v h => ⟨h.1.aside ⟨rfl, rfl⟩, h.2⟩) d begin outcome
      (fun _ x hx work hwork => ?_) ⟨h.inHand, rfl⟩).mono fun y v hy => ?_
  · obtain ⟨s, hs⟩ := Definition.steps_noted (h.steps x hx)
    rw [hs] at hwork
    obtain ⟨work, -, rfl⟩ := Option.map_eq_some_iff.1 hwork
    exact Environment.onBoard_unaware_keeps (fun b c m w _ hF =>
      ⟨.of_aside ⟨rfl, rfl⟩, hF.1.aside ⟨rfl, rfl⟩, hF.2⟩) work
  · obtain ⟨⟨hhand, hbooks⟩, houtcome, -, htrace⟩ := hy
    refine ⟨_, hhand, fun result hresult => ?_⟩
    cases hresult
    rw [houtcome, hbooks]
    exact ⟨htrace.trans hbooks, hparks⟩

theorem run_returns (hc : q.Serves c) (horderly : q.definition.Orderly) (hu : q.stored w = some u)
    (hpoised : q.Poised u) (hrunning : u.status = .running)
    (hstart : q.graph.Clears u.history start) :
    ((c.environment q.id).run q.definition.noted start context u).Heeds q.watch (q.Returns u) w := by
  have hguides := Watch.guides_obeys (P := q.watch) (J := q.Carries u) (Q := q.Parks u)
    (I := fun s t => q.Carries u s → q.Advances s.2 t.2 ∧ q.Carries u t) Carries.lasts Parks.lasts
    (fun _ _ hs h => h hs) (fun s => .refl s.2) (fun _ _ _ _ => trivial)
  refine Environment.run_heeds hguides (fun e v => .of_aside ⟨rfl, rfl⟩) (fun v hv v' e hv' => ?_)
    (fun begin board r v hdone _ o ho => ?_) (fun board r v hdone _ _ => ?_)
    (fun begin path board v hpath => ?_)
  · have hstored : q.stored (World.publish e v') = some u := (hv'.1.trans hv.1).trans hu
    have hcarries : q.Carries u (({ context, extra := u } : Board C (H × Asks) Instance),
        World.publish e v') :=
      ⟨⟨hpoised.id, hpoised.workflow, hrunning, ⟨[], (List.append_nil _).symm, .refl _⟩, u, hstored,
        List.prefix_refl _, hpoised⟩, by simp⟩
    refine ⟨hcarries, traverse_travels hc horderly hstart ⟨hcarries, fun _ => ?_, by simp⟩ rfl⟩
    exact (List.append_nil _).symm
  · refine conclude_returns _ begin hdone.1 fun x hx signal => hdone.2 x ?_ signal
    subst hx
    unfold Environment.outcome at ho
    simp only at ho
    split at ho
    · simp at ho
    · simp at ho
    · next hr =>
      cases ho
      exact hr
    · simp at ho
    · simp at ho
  · exact ⟨_, hdone.1.inHand, by simp⟩
  · exact conclude_returns _ begin hpath.1 (by simp)

/-! ### Writes -/

theorem stable_stored : q.watch.Stable fun v => q.stored v = some s := fun h hv => hv.1.trans h

theorem stable_poised : q.watch.Stable fun v => ∀ s ∈ q.stored v, q.Poised s := by
  intro v v' hv hv'
  rw [hv'.1]
  exact hv

theorem aside_heeds {α : Type} {F : World R (H × Asks) → Prop}
    {f : World R (H × Asks) → α × World R (H × Asks)} (hf : ∀ v, q.Aside v (f v).2)
    (hF : q.watch.Stable F) (hw : F w) :
    (Operation.update f : Operation C (H × Asks) R α).Heeds q.watch (fun _ => F) w :=
  .update fun v hv => ⟨.of_aside (hf v), hF (hF hw hv) (hf v)⟩

theorem announce_heeds {F : World R (H × Asks) → Prop} (id : Uuid) (what : Happening)
    (hF : q.watch.Stable F) (hw : F w) :
    (Operation.announce id what : Operation C (H × Asks) R Unit).Heeds q.watch (fun _ => F) w :=
  aside_heeds (f := fun v => ((), World.publish ⟨id, what⟩ v)) (fun _ => ⟨rfl, rfl⟩) hF hw

theorem tell_heeds {F : World R (H × Asks) → Prop} (notice : Notice) (hF : q.watch.Stable F)
    (hw : F w) : (c.tell notice).Heeds q.watch (fun _ => F) w := by
  refine aside_heeds (f := fun v => ((), c.notifier.tell notice v)) (fun v => ?_) hF hw
  exact ⟨by rw [stored, Notifier.tell_store, stored], by rw [Notifier.tell_memory]⟩

theorem persist_heeds (hc : q.Serves c) (hs : q.Poised s)
    (hlonger : ∀ t ∈ q.stored w, q.Longer t.history s.history) :
    (c.persist s).Heeds q.watch (fun s' v => s' = { s with revision := s.revision + 1 } ∧
      q.stored v = some s') w := by
  have hask : (Operation.update (Operation.onStore (c.repository.persist s)) :
      Operation C (H × Asks) R _).Heeds q.watch (fun p v => ∀ s', p = .stored s' →
        s' = { s with revision := s.revision + 1 } ∧ q.stored v = some s') w := by
    refine .update fun v hv => ?_
    obtain ⟨heq, hview⟩ | ⟨hne, hview⟩ := stored_persist hc.lawful hs.id v
    · refine ⟨.of_stored (t := { s with revision := s.revision + 1 })
        (fun t ht => hlonger t (hv.1 ▸ ht)) (hs.revised _) hview rfl, fun s' hs' => ?_⟩
      rw [heq] at hs'
      cases hs'
      exact ⟨rfl, hview⟩
    · exact ⟨.of_aside ⟨hview, rfl⟩, fun s' hs' => absurd hs' (hne s')⟩
  refine hask.bind fun p v hp => ?_
  cases p with
  | stored s' => exact .pure (hp s' rfl)
  | refused fault => exact .throw _
  | exhausted => exact .crash _

theorem file_heeds (hc : q.Serves c) {r : Except TransitionError Instance}
    (note : Instance → Instance) (notice : Instance → Notice)
    (h : ∀ s, r = .ok s → q.Poised (note s) ∧
      ∀ t ∈ q.stored w, q.Longer t.history (note s).history) :
    (do
      let s ← Operation.moved r
      let s ← c.persist (note s)
      c.tell (notice s)
      return s : Operation C (H × Asks) R Instance).Heeds q.watch (fun _ _ => True) w := by
  refine (Operation.Heeds.moved (Q := fun s v => q.Poised (note s) ∧
    ∀ t ∈ q.stored v, q.Longer t.history (note s).history) h).bind fun s v hs => ?_
  refine (persist_heeds hc hs.1 hs.2).bind fun s' v _ => ?_
  exact (tell_heeds (F := fun _ => True) _ (fun h _ => h) trivial).bind fun _ _ _ => .pure trivial

theorem settle_heeds (hc : q.Serves c) {outcome : RunOutcome} {context : Json}
    (hhand : q.InHand u last books w) (hparks : ∀ x, outcome = .suspended x → ∀ signal,
      q.graph.Clears (u.history ++ books) (.signal x.node x.pending signal)) :
    (c.settle { last with context, history := u.history ++ books } outcome).Heeds q.watch
      (fun _ _ => True) w := by
  have hnow : (Operation.now : Operation C (H × Asks) R Timestamp).Heeds q.watch
      (fun _ => q.InHand u last books) w := .now InHand.aside hhand
  cases outcome with
  | completed =>
    refine hnow.bind fun now v hhand => file_heeds hc (fun s => { s with pending := [] }) .completed
      fun s' hs' => ?_
    obtain ⟨⟨hid, hworkflow, hhistory⟩, hstatus, -⟩ := Instance.moved_of_transition hs'
    exact ⟨.of_final (hid.trans hhand.id) (hworkflow.trans hhand.workflow) (by simp [hstatus]; rfl),
      hhistory ▸ hhand.longer⟩
  | failed failure =>
    refine hnow.bind fun now v hhand => file_heeds hc
      (fun s => { s with pending := [], error := some failure.text }) (.errored · failure.text)
      fun s' hs' => ?_
    obtain ⟨⟨hid, hworkflow, hhistory⟩, hstatus, -⟩ := Instance.moved_of_transition hs'
    exact ⟨.of_final (hid.trans hhand.id) (hworkflow.trans hhand.workflow) (by simp [hstatus]; rfl),
      hhistory ▸ hhand.longer⟩
  | suspended x =>
    refine hnow.bind fun now v hhand => ?_
    split
    · exact .crash _
    · refine file_heeds hc (fun s => s) .approvalRequested fun s' hs' => ?_
      obtain ⟨s, hs, rfl⟩ := Instance.enterWait_eq hs'
      obtain ⟨⟨hid, hworkflow, hhistory⟩, hstatus, -⟩ := Instance.moved_of_transition hs
      -- What the instance waits at is where the run says that it waits.
      refine ⟨⟨hid.trans hhand.id, hworkflow.trans hhand.workflow, by simp [hstatus],
        by simp [hstatus], fun _ node hnode signal => ?_⟩, hhistory ▸ hhand.longer⟩
      cases hnode
      simp only [hhistory]
      exact hparks x rfl signal

theorem settleCancelled_heeds {α : Type} (hc : q.Serves c) (hhand : q.InHand u last books w) :
    (c.settleCancelled last : Operation C (H × Asks) R α).Heeds q.watch (fun _ _ => True) w := by
  refine (Operation.Heeds.now InHand.aside hhand).bind fun now v hhand => ?_
  refine (Operation.Heeds.moved (Q := fun s v => q.Poised { s with error := some "cancelled" } ∧
    ∀ t ∈ q.stored v, q.Longer t.history s.history) fun s hs => ?_).bind fun s v hs => ?_
  · obtain ⟨⟨hid, hworkflow, hhistory⟩, hstatus, -⟩ := Instance.moved_of_transition hs
    refine ⟨.of_final (hid.trans hhand.id) (hworkflow.trans hhand.workflow) (by simp [hstatus]; rfl),
      fun t ht => ?_⟩
    rw [hhistory]
    exact .of_begins (hhand.begins t ht)
  · refine (persist_heeds hc hs.1 hs.2).bind fun s' v _ => ?_
    exact (announce_heeds (F := fun _ => True) _ _ (fun h _ => h) trivial).bind fun _ _ _ => .throw _

theorem drive_heeds (hc : q.Serves c) (horderly : q.definition.Orderly) (hu : q.stored w = some u)
    (hpoised : q.Poised u) (hrunning : u.status = .running)
    (hstart : q.graph.Clears u.history start) :
    (c.drive q.definition.noted u context start).Heeds q.watch (fun _ _ => True) w := by
  unfold Coordinator.drive
  rw [hpoised.id]
  refine (Operation.Heeds.ofErrand (run_returns hc horderly hu hpoised hrunning hstart)).bind
    fun r v hr => ?_
  obtain ⟨last, result⟩ := r
  obtain ⟨books, hhand, hresult⟩ := hr
  cases result with
  | none => exact settleCancelled_heeds hc hhand
  | some result =>
    refine (Operation.Heeds.orThrow (Q := fun _ => q.InHand u last books) fun _ _ => hhand).bind
      fun context v hhand => ?_
    obtain ⟨htrace, hparks⟩ := hresult result rfl
    obtain ⟨l, hl, -⟩ := hhand.history
    have htake : last.history.take u.history.length = u.history := by
      rw [show last.history = _ from hl, List.take_left]
    simp only [htake, htrace]
    exact .bind (settle_heeds hc hhand hparks) fun _ _ _ => .pure trivial

theorem claim_heeds (hc : q.Serves c) (horderly : q.definition.Orderly) (hs : q.Poised s)
    (hrunning : s.status = .running) (hstart : q.graph.Clears s.history start)
    (hlonger : ∀ t ∈ q.stored w, q.Longer t.history s.history) :
    (do
      let s ← c.persist s
      c.drive q.definition.noted s context start : Operation C (H × Asks) R (Driven C)).Heeds q.watch
        (fun _ _ => True) w := by
  refine (persist_heeds hc hs hlonger).bind fun s' v ⟨hs', hstored⟩ => ?_
  subst hs'
  exact drive_heeds hc horderly hstored (hs.revised _) hrunning hstart

/-! ### Calls -/

theorem acquire_heeds {F : World R (H × Asks) → Prop} (operation : Nat) (id : Uuid)
    (hF : q.watch.Stable F) (hw : F w) :
    (c.acquire operation id).Heeds q.watch (fun _ => F) w := by
  refine (aside_heeds (fun v => ?_) hF hw).bind fun acquired v hv => ?_
  · unfold World.acquire
    split <;> exact ⟨rfl, rfl⟩
  · cases acquired
    · exact .throw _
    · exact .pure hv

theorem load_heeds (hc : q.Serves c) (hw : ∀ s ∈ q.stored w, q.Poised s) :
    (c.load q.id).Heeds q.watch (fun s v => q.stored v = some s ∧ q.Poised s) w := by
  have hget : (Operation.request (c.repository.get q.id) :
      Operation C (H × Asks) R (Option Instance)).Heeds q.watch
        (fun found v => ∀ s ∈ found, q.stored v = some s ∧ q.Poised s) w := by
    refine .request fun v hv => ?_
    have hobeys := hc.lawful.get q.id v.store
    cases hreply : c.repository.get q.id v.store with
    | mk answer store =>
      rw [hreply] at hobeys
      cases answer with
      | error fault => exact ⟨.of_aside ⟨congrFun hobeys q.id, rfl⟩, by simp⟩
      | ok found =>
        obtain ⟨hsame, hfound⟩ := hobeys
        refine ⟨.of_aside ⟨congrFun hsame q.id, rfl⟩, fun a ha s hs => ?_⟩
        cases ha
        have hstored : q.stored v = some s := hfound s hs
        exact ⟨(congrFun hsame q.id).trans hstored, hw s (hv.1 ▸ hstored)⟩
  exact hget.bind fun found v hfound => .orThrow hfound

theorem definitionFor_heeds (hc : q.Serves c) {F : World R (H × Asks) → Prop}
    (hs : s.workflow = q.definition.id) (hw : F w) :
    (c.definitionFor s).Heeds q.watch (fun d v => d = q.definition.noted ∧ F v) w := by
  refine .bind (.orThrow (Q := fun d v => d = q.definition.noted ∧ F v) fun d hd => ?_)
    fun d v hd => ?_
  · rw [hs, hc.definition] at hd
    cases hd
    exact ⟨rfl, hw⟩
  · split
    · exact .pure hd
    · exact .throw _

/-- A new instance is started at the root. -/
theorem poised_of_start {s' : Instance} {now : Timestamp} (hs : q.Poised s)
    (hcreated : s.status = .created) (h : s.transition .running now = .ok s') :
    q.Poised s' ∧ s'.status = .running ∧ s'.history = s.history := by
  obtain ⟨hhistory, hpending, hnode⟩ := hs.created hcreated
  obtain ⟨⟨hid, hworkflow, hsame⟩, hstatus, hpending', hnode'⟩ := Instance.moved_of_transition h
  refine ⟨⟨hid.trans hs.id, hworkflow.trans hs.workflow, by simp [hstatus], fun _ => ?_,
    by simp [hstatus]⟩, hstatus, hsame⟩
  simp [Coordinator.restartPoint, Instance.pendingDelivery, hnode' hnode, hpending', hpending,
    hsame, hhistory, Graph.Clears]

theorem poised_of_revive {s' : Instance} {now : Timestamp} (hs : q.Poised s)
    (h : Coordinator.revive s now = .ok s') :
    q.Poised s' ∧ s'.status = .running ∧ s'.history = s.history := by
  unfold Coordinator.revive at h
  split at h
  · next hrunning =>
    cases h
    exact ⟨hs, hrunning, rfl⟩
  · next hcreated =>
    split at h
    · next t ht =>
      cases h
      exact poised_of_start hs hcreated ht
    · simp at h
  · simp at h
  · simp at h

/-- An instance that waits takes the signal where it waits. -/
theorem poised_of_acceptSignal {s' : Instance} {node : NodeId} {signal : Signal} {now : Timestamp}
    (hs : q.Poised s) (hwaiting : s.status = .waiting) (hnode : s.waitingNode = some node)
    (h : s.acceptSignal node signal now = .ok s') :
    q.Poised s' ∧ s'.status = .running ∧ s'.history = s.history ∧
      q.graph.Clears s'.history (.signal node s'.pending signal) := by
  obtain ⟨t, ht, rfl⟩ := Instance.acceptSignal_eq h
  obtain ⟨⟨hid, hworkflow, hsame⟩, hstatus, hpending, -⟩ := Instance.moved_of_transition ht
  have hclears : q.graph.Clears t.history (.signal node t.pending signal) := by
    rw [hsame, hpending]
    exact hs.waiting hwaiting node hnode signal
  refine ⟨⟨hid.trans hs.id, hworkflow.trans hs.workflow, by simp [hstatus], fun _ => ?_,
    by simp [hstatus]⟩, hstatus, hsame, hclears⟩
  simpa only [Coordinator.restartPoint, Instance.pendingDelivery, hstatus] using hclears

theorem resume_heeds (hc : q.Serves c) (horderly : q.definition.Orderly) (operation : Nat)
    (hw : ∀ s ∈ q.stored w, q.Poised s) :
    (c.resume operation q.id).Heeds q.watch (fun _ _ => True) w := by
  refine .releasing operation ?_ fun v => .of_aside ⟨rfl, rfl⟩
  refine (acquire_heeds operation q.id stable_poised hw).bind fun _ v hv => ?_
  refine (load_heeds hc hv).bind fun s v ⟨hs, hpoised⟩ => ?_
  refine (Operation.Heeds.now stable_stored hs).bind fun now v hs => ?_
  refine (Operation.Heeds.lift (Q := fun s' v => q.Poised s' ∧ s'.status = .running ∧
    s'.history = s.history ∧ q.stored v = some s) fun s' hs' => ?_).bind fun s' v h => ?_
  · obtain ⟨hpoised', hrunning, hhistory⟩ := poised_of_revive hpoised hs'
    exact ⟨hpoised', hrunning, hhistory, hs⟩
  obtain ⟨hpoised', hrunning, hhistory, hs⟩ := h
  refine (definitionFor_heeds (F := fun v => q.stored v = some s) hc hpoised'.workflow hs).bind
    fun d v ⟨hd, hs⟩ => ?_
  subst hd
  refine (Operation.Heeds.orThrow (Q := fun _ v => q.stored v = some s) fun _ _ => hs).bind
    fun context v hs => ?_
  refine claim_heeds hc horderly hpoised' hrunning (hpoised'.running hrunning) fun t ht => ?_
  cases hs.symm.trans ht
  exact hhistory ▸ .refl _

theorem signal_heeds (hc : q.Serves c) (horderly : q.definition.Orderly) (operation : Nat)
    (name : String) (payload : Json) (hw : ∀ s ∈ q.stored w, q.Poised s) :
    (c.signal operation q.id name payload).Heeds q.watch (fun _ _ => True) w := by
  refine .releasing operation ?_ fun v => .of_aside ⟨rfl, rfl⟩
  refine (acquire_heeds operation q.id stable_poised hw).bind fun _ v hv => ?_
  refine (load_heeds hc hv).bind fun s v ⟨hs, hpoised⟩ => ?_
  refine (Operation.Heeds.orThrow (Q := fun node v => q.stored v = some s ∧
    s.isWaitingFor name = true ∧ s.waitingNode = some node) fun node hnode => ?_).bind
    fun node v ⟨hs, hwaits, hnode⟩ => ?_
  · exact ⟨hs, by simpa using hnode⟩
  refine (definitionFor_heeds (F := fun v => q.stored v = some s) hc hpoised.workflow hs).bind
    fun d v ⟨hd, hs⟩ => ?_
  subst hd
  refine (Operation.Heeds.orThrow (Q := fun _ v => q.stored v = some s) fun _ _ => hs).bind
    fun context v hs => ?_
  refine (Operation.Heeds.now stable_stored hs).bind fun now v hs => ?_
  refine (Operation.Heeds.moved (Q := fun s' v =>
    s.acceptSignal node ⟨name, payload, now⟩ now = .ok s' ∧ q.stored v = some s) fun s' hs' =>
      ⟨hs', hs⟩).bind fun s' v ⟨hs', hs⟩ => ?_
  have hwaiting : s.status = .waiting := beq_iff_eq.1 (Bool.and_eq_true_iff.1 hwaits).1
  obtain ⟨hpoised', hrunning, hhistory, hclears⟩ := poised_of_acceptSignal hpoised hwaiting hnode hs'
  refine (persist_heeds hc hpoised' fun t ht => ?_).bind fun s'' v ⟨hs'', hstored⟩ => ?_
  · cases hs.symm.trans ht
    exact hhistory ▸ .refl _
  subst hs''
  refine (announce_heeds q.id (.runResumed name) stable_stored hstored).bind fun _ v hstored => ?_
  exact drive_heeds hc horderly hstored (hpoised'.revised _) hrunning hclears

end Custody

end DurableWorkflow

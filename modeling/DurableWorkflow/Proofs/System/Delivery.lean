import DurableWorkflow.Proofs.System.Accounts

/-!
# An accepted signal is not lost

The write that accepts a signal records it with its node. The record stays as it is, whatever
requests fail, wherever calls are dropped and however often the instance is resumed, until a version
is stored with the result of the delivery, or the instance has failed, or it is cancelled or
deleted. A run of a version that records a delivery begins with it, and until the node has been
passed, its step is all that works, on this signal.
-/

namespace DurableWorkflow

variable {H R : Type} {view : R → Uuid → Option Instance}

namespace System

variable {σ σ' : System H R} {id : Uuid} {s t : Instance} {node : NodeId} {signal : Signal}

/-- A step in which the delivery of the signal to the node, recorded in the stored version `t`, has
come to its end. -/
inductive Resolved (view : R → Uuid → Option Instance) (σ σ' : System H R) (id : Uuid) (t : Instance)
    (node : NodeId) (signal : Signal) : Prop
  | deleted (h : σ'.stored view id = none)
  | cancelled {s : Instance} (hs : σ'.stored view id = some s) (h : s.status = .cancelled)
  | failed {s : Instance} (hs : σ'.stored view id = some s) (h : s.status = .failed)
  /-- A run that has begun with the delivery has stored where it stopped, with what came of it. -/
  | stopped {s : Instance} {entries : List StepTrace} (hs : σ'.stored view id = some s)
      (h : s.status = .waiting ∨ s.status = .completed) (hhistory : s.history = t.history ++ entries)
      (th : Thread H R) (hth : th ∈ σ.threads) {c : Coordinator th.demand.Context H R}
      (hc : c ∈ th.demand.coordinators) (hanswers : c.Answers th.number t node signal entries)
  /-- A run that has begun with the delivery, which has succeeded, has stored a checkpoint. -/
  | passed {s : Instance} {e : StepTrace} {l : List StepTrace} (hs : σ'.stored view id = some s)
      (h : s.status = .running) (hnone : s.pendingDelivery = none) (th : Thread H R)
      (hth : th ∈ σ.threads)
      {path : Walk (Board th.demand.Context H Instance × World (Journaled R) H) Report}
      {board : Board th.demand.Context H Instance} (hwalks : th.Walks path board)
      {c : Coordinator th.demand.Context H R} (hc : c ∈ th.demand.coordinators)
      (hanswers : c.Answers th.number t node signal board.ledger.trace)
      (hbooks : board.ledger.trace = e :: l) (hdone : e.outcome = .succeeded)

/-- A step changes what is stored of an instance by a move, or on a run by what `Passed` says, or it
deletes the instance. -/
theorem Accounted.changes (h : Accounted view σ) (hstep : Step view σ σ') (hu : σ'.journal.Unique)
    (ht : σ.stored view id = some t) :
    σ'.stored view id = some t ∨ σ'.stored view id = none ∨
      ∃ s, σ'.stored view id = some { s with revision := s.revision + 1 } ∧ ∃ th ∈ σ.threads,
        Instance.Move th.caller.warrant t s ∨
          ∃ path board, th.Walks path board ∧
            Instance.Passed th.caller.warrant board.ledger.trace t s := by
  have h' := h.step hstep
  have hlegal := h'.told.legal hu
  rw [h.stored_eq] at ht
  rw [h'.stored_eq]
  cases h.adds hstep with
  | same hsame =>
    rw [hsame]
    exact .inl ht
  | own th hth hadds =>
    rcases hadds.changes (fun _ _ hmove => hmove.same) hlegal hu ht with hsame | hnone | ⟨s, hs, hs'⟩
    · exact .inl hsame
    · exact .inr (.inl hnone)
    · exact .inr (.inr ⟨s, hs', th, hth, .inl hs⟩)
  | pace th hth hwalks hadds =>
    rcases hadds.changes (fun _ _ hpassed => ⟨hpassed.id, hpassed.revision⟩) hlegal hu ht with
      hsame | hnone | ⟨s, hs, hs'⟩
    · exact .inl hsame
    · exact .inr (.inl hnone)
    · exact .inr (.inr ⟨s, hs', th, hth, .inr ⟨_, _, hwalks, hs⟩⟩)

/-- A step keeps the record of a delivery, or the delivery has come to its end. -/
theorem Accounted.delivery (h : Accounted view σ) (hstep : Step view σ σ') (hu : σ'.journal.Unique)
    (ht : σ.stored view id = some t) (hdelivery : t.pendingDelivery = some (node, signal)) :
    (∃ s, σ'.stored view id = some s ∧ s.pendingDelivery = some (node, signal)) ∨
      Resolved view σ σ' id t node signal := by
  have hrunning : t.status = .running := Instance.running_of_pendingDelivery (by simp [hdelivery])
  rcases h.changes hstep hu ht with
    hsame | hnone | ⟨s, hs, th, hth, hmove | ⟨path, board, hwalks, hp⟩⟩
  · exact .inl ⟨t, hsame, hdelivery⟩
  · exact .inr (.deleted hnone)
  · cases hmove with
    | begin hcreated => simp [hrunning] at hcreated
    | renew => exact .inl ⟨_, hs, hdelivery⟩
    | accept _ hwaits => simp [Instance.isWaitingFor, hrunning] at hwaits
    | cancel hcancel =>
      obtain ⟨-, rfl⟩ := Instance.transition_eq hcancel
      exact .inr (.cancelled hs rfl)
    | expire hwaiting => simp [hrunning] at hwaiting
    | complete _ hend hanswered =>
      obtain ⟨-, rfl⟩ := Instance.transition_eq hend
      obtain ⟨entries, hhistory, c, hc, hanswers⟩ := hanswered node signal hdelivery
      exact .inr (.stopped hs (.inr rfl) hhistory th hth hc hanswers)
    | fail _ _ hend =>
      obtain ⟨-, rfl⟩ := Instance.transition_eq hend
      exact .inr (.failed hs rfl)
    | wait _ hend hanswered =>
      obtain ⟨u, hu, rfl⟩ := Instance.enterWait_eq hend
      obtain ⟨-, rfl⟩ := Instance.transition_eq hu
      obtain ⟨entries, hhistory, c, hc, hanswers⟩ := hanswered node signal hdelivery
      exact .inr (.stopped hs (.inl rfl) hhistory th hth hc hanswers)
    | giveUp _ hend =>
      obtain ⟨-, rfl⟩ := Instance.transition_eq hend
      exact .inr (.cancelled hs rfl)
  · obtain ⟨⟨c, hc, hanswers⟩, e, l, hbooks, hdone⟩ := hp.answered node signal hdelivery
    have hnone : s.pendingDelivery = none := by
      simp [Instance.pendingDelivery, hp.node]
    exact .inr (.passed hs hp.status hnone th hth hwalks hc hanswers hbooks hdone)

theorem Accounted.accepts (h : Accounted view σ) (hstep : Step view σ σ') (hu : σ'.journal.Unique)
    (ht : σ.stored view id = some t) (hs : σ'.stored view id = some s)
    (hwaiting : t.status = .waiting) (hrunning : s.status = .running) :
    ∃ th ∈ σ.threads, ∃ node name payload receivedAt, th.demand.offer = some (name, payload) ∧
      t.isWaitingFor name = true ∧ t.waitingNode = some node ∧
      s.pendingDelivery = some (node, ⟨name, payload, receivedAt⟩) := by
  rcases h.changes hstep hu ht with hsame | hnone | ⟨s', hs', th, hth, hmove | ⟨path, board, -, hp⟩⟩
  · rw [hs] at hsame
    cases hsame
    rw [hwaiting] at hrunning
    simp at hrunning
  · rw [hs] at hnone
    simp at hnone
  · obtain rfl : s = _ := Option.some.inj (hs.symm.trans hs')
    cases hmove with
    | begin hcreated => simp [hwaiting] at hcreated
    | renew hrenew => simp [hwaiting] at hrenew
    | @accept _ name payload node now hoffer hwaits hnode haccept =>
      obtain ⟨u, hu, rfl⟩ := Instance.acceptSignal_eq haccept
      obtain ⟨-, rfl⟩ := Instance.transition_eq hu
      exact ⟨th, hth, node, name, payload, now, hoffer, hwaits, hnode, rfl⟩
    | cancel hcancel =>
      obtain ⟨-, rfl⟩ := Instance.transition_eq hcancel
      simp at hrunning
    | expire _ hexpire =>
      obtain ⟨u, hu, rfl⟩ := Instance.expire_eq hexpire
      obtain ⟨-, rfl⟩ := Instance.transition_eq hu
      simp at hrunning
    | complete hlast | fail _ hlast | wait hlast | giveUp hlast =>
      have hne := hlast.running
      rw [hwaiting] at hne
      simp at hne
  · have hne := hp.running
    rw [hwaiting] at hne
    simp at hne

/-- Along a run. -/
theorem Accounted.lasts (h : Accounted view σ) (hsteps : Steps view σ σ') (hu : σ'.journal.Unique)
    (hs : σ.stored view id = some s) (hdelivery : s.pendingDelivery = some (node, signal)) :
    (∃ s, σ'.stored view id = some s ∧ s.pendingDelivery = some (node, signal)) ∨
      ∃ τ τ' t, Steps view σ τ ∧ Step view τ τ' ∧ Steps view τ' σ' ∧ τ.stored view id = some t ∧
        t.pendingDelivery = some (node, signal) ∧ Resolved view τ τ' id t node signal := by
  induction hsteps with
  | refl => exact .inl ⟨s, hs, hdelivery⟩
  | @tail τ τ' hbefore hstep ih =>
    have hτ := h.steps hbefore
    have hgrows := Steps.grows (.single hstep) hτ.toSound
    have huτ : τ.journal.Unique := hgrows.unique hu
    rcases ih huτ with ⟨t, ht, hrecord⟩ | ⟨υ, υ', t, hfirst, hresolving, hafter, hrest⟩
    · rcases hτ.delivery hstep hu ht hrecord with hkept | hresolved
      · exact .inl hkept
      · exact .inr ⟨τ, τ', t, hbefore, hstep, .refl, ht, hrecord, hresolved⟩
    · exact .inr ⟨υ, υ', t, hfirst, hresolving, hafter.tail hstep, hrest⟩

end System

end DurableWorkflow

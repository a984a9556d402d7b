import DurableWorkflow.Coordinator.Sweeper

/-!
# Moves of an instance

Which fields of an instance are set goes with its status (`WellFormed`). The operations on instances
do not keep this one by one: `transition` alone leads to a waiting instance that waits for nothing,
and `clearDelivery` alone forgets the node of one that waits. What is stored in the place of a
version is the outcome of a whole move, and every move keeps it.

A run may be ahead of the stored version, by checkpoints that were refused (`Ahead`). The delivery
of a signal stays recorded until a move says that the node has been passed, and such a move holds
the entry of the node.
-/

namespace DurableWorkflow

namespace Instance

/-- The fields that are set go with the status. -/
structure WellFormed (s : Instance) : Prop where
  awaits : s.status = .waiting ↔ s.awaited.isSome
  waits : s.status = .waiting → s.waitingNode.isSome ∧ s.delivered = none
  deadline : s.deadline.isSome → s.status = .waiting
  delivered : s.delivered.isSome → s.status = .running ∧ s.waitingNode.isSome
  node : s.waitingNode.isSome → s.status = .waiting ∨ s.status = .running ∧ s.delivered.isSome
  final : s.status.isFinal = true →
    s.awaited = none ∧ s.waitingNode = none ∧ s.deadline = none ∧ s.delivered = none
  emptied : s.status = .completed ∨ s.status = .failed → s.pending = []
  faulty : s.status = .failed ∨ s.status = .timedOut → s.error.isSome
  sound : s.error.isSome → s.status.isFinal = true ∧ s.status ≠ .completed

variable {s t last : Instance} {now : Timestamp} {target : Status}

/-! ### What is set in each status -/

theorem wellFormed_created (h : s.status = .created) : s.WellFormed ↔
    s.awaited = none ∧ s.waitingNode = none ∧ s.deadline = none ∧ s.delivered = none ∧
      s.error = none := by
  constructor
  · rintro ⟨hawaits, -, hdeadline, hdelivered, hnode, -, -, -, hsound⟩
    simp_all [Status.isFinal]
  · rintro ⟨hawaited, hnode, hdeadline, hdelivered, herror⟩
    constructor <;> simp_all [Status.isFinal]

theorem wellFormed_running (h : s.status = .running) : s.WellFormed ↔
    s.awaited = none ∧ s.deadline = none ∧ (s.waitingNode.isSome ↔ s.delivered.isSome) ∧
      s.error = none := by
  constructor
  · rintro ⟨hawaits, -, hdeadline, hdelivered, hnode, -, -, -, hsound⟩
    have hawaited : s.awaited = none := by simpa [h] using hawaits
    have hnone : s.deadline = none := by simpa [h] using hdeadline
    have herror : s.error = none := by simpa [h, Status.isFinal] using hsound
    refine ⟨hawaited, hnone, ⟨fun hs => ?_, fun hs => (hdelivered hs).2⟩, herror⟩
    simpa [h] using hnode hs
  · rintro ⟨hawaited, hdeadline, hnode, herror⟩
    constructor <;> simp_all [Status.isFinal]

theorem wellFormed_waiting (h : s.status = .waiting) : s.WellFormed ↔
    s.awaited.isSome ∧ s.waitingNode.isSome ∧ s.delivered = none ∧ s.error = none := by
  constructor
  · rintro ⟨hawaits, hwaits, -, -, -, -, -, -, hsound⟩
    obtain ⟨hnode, hdelivered⟩ := hwaits h
    exact ⟨hawaits.1 h, hnode, hdelivered, by simpa [h, Status.isFinal] using hsound⟩
  · rintro ⟨hawaited, hnode, hdelivered, herror⟩
    constructor <;> simp_all [Status.isFinal]

theorem wellFormed_final (h : s.status.isFinal = true) : s.WellFormed ↔
    s.awaited = none ∧ s.waitingNode = none ∧ s.deadline = none ∧ s.delivered = none ∧
      (s.status = .completed ∨ s.status = .failed → s.pending = []) ∧
      (s.status = .failed ∨ s.status = .timedOut → s.error.isSome) ∧
      (s.status = .completed → s.error = none) := by
  have hwaiting : s.status ≠ .waiting := fun hs => by simp [hs, Status.isFinal] at h
  constructor
  · rintro ⟨-, -, -, -, -, hfinal, hemptied, hfaulty, hsound⟩
    obtain ⟨hawaited, hnode, hdeadline, hdelivered⟩ := hfinal h
    refine ⟨hawaited, hnode, hdeadline, hdelivered, hemptied, hfaulty, fun hs => ?_⟩
    simpa [hs] using hsound
  · rintro ⟨hawaited, hnode, hdeadline, hdelivered, hemptied, hfaulty, hsound⟩
    refine ⟨by simp [hwaiting, hawaited], fun hs => absurd hs hwaiting, by simp [hdeadline],
      by simp [hdelivered], by simp [hnode],
      fun _ => ⟨hawaited, hnode, hdeadline, hdelivered⟩, hemptied, hfaulty,
      fun herror => ⟨h, fun hs => ?_⟩⟩
    simp [hsound hs] at herror

/-- The revision does not matter. -/
theorem WellFormed.revise (h : s.WellFormed) (n : Nat) : { s with revision := n }.WellFormed :=
  ⟨h.awaits, h.waits, h.deadline, h.delivered, h.node, h.final, h.emptied, h.faulty, h.sound⟩

theorem create_wellFormed (id : Uuid) (workflow : String) (version : Version) (contextType : String)
    (context : Json) (now : Timestamp) :
    (create id workflow version contextType context now).WellFormed :=
  (wellFormed_created rfl).2 ⟨rfl, rfl, rfl, rfl, rfl⟩

/-- A delivery is on its way only while the instance is running. -/
theorem running_of_pendingDelivery (h : s.pendingDelivery.isSome) : s.status = .running := by
  unfold pendingDelivery at h
  split at h
  · assumption
  · simp at h

/-! ### Moves -/

theorem transition_eq (h : t.transition target now = .ok s) :
    t.status.allows target = true ∧ s = { t with
      awaited := if t.status == .waiting && target != .waiting then none else t.awaited
      waitingNode :=
        if (t.status == .waiting && target != .waiting) || target.isFinal then none else t.waitingNode
      deadline := if t.status == .waiting && target != .waiting then none else t.deadline
      delivered := if target == .running then t.delivered else none
      status := target
      updatedAt := now } := by
  unfold transition at h
  split at h
  · next hallows =>
    cases h
    exact ⟨hallows, rfl⟩
  · simp at h

/-- What a run has in hand of the running version `t`: checkpoints that were refused count, and
after one of them no signal is on its way any more. -/
structure Ahead (t s : Instance) : Prop where
  id : s.id = t.id
  revision : s.revision = t.revision
  running : t.status = .running
  status : s.status = .running
  awaited : s.awaited = t.awaited
  deadline : s.deadline = t.deadline
  error : s.error = t.error
  delivery : s.waitingNode = t.waitingNode ∧ s.delivered = t.delivered ∨
    s.waitingNode = none ∧ s.delivered = none

/-- What the moves of a call rest on: the signal that it offers, if it offers one, and which entries
tell what came of the delivery that a version records. -/
structure Warrant where
  offer : Option (String × Json)
  answers : Instance → NodeId → Signal → List StepTrace → Prop

/-- If `t` records a delivery, the history goes on after that of `t` with what came of it. -/
def AnsweredIn (p : Warrant) (t : Instance) (history : List StepTrace) : Prop :=
  ∀ node signal, t.pendingDelivery = some (node, signal) →
    ∃ l, history = t.history ++ l ∧ p.answers t node signal l

/-- What a call may store in the place of the version `t`, under the next revision. -/
inductive Move (p : Warrant) (t : Instance) : Instance → Prop
  | begin {s : Instance} {now : Timestamp} (ht : t.status = .created)
      (h : t.transition .running now = .ok s) : Move p t s
  /-- Nothing changes but the revision, which keeps others away. -/
  | renew (ht : t.status = .running) : Move p t t
  | accept {s : Instance} {name : String} {payload : Json} {node : NodeId} {now : Timestamp}
      (hoffer : p.offer = some (name, payload)) (hwaits : t.isWaitingFor name = true)
      (hnode : t.waitingNode = some node)
      (h : t.acceptSignal node ⟨name, payload, now⟩ now = .ok s) : Move p t s
  | cancel {s : Instance} {now : Timestamp} (h : t.transition .cancelled now = .ok s) :
    Move p t s
  | expire {s : Instance} {now : Timestamp} {signal message : String} (ht : t.status = .waiting)
      (h : Sweeper.expire t now = .ok (s, signal, message)) : Move p t s
  | complete {last s : Instance} {now : Timestamp} (hlast : t.Ahead last)
      (h : last.transition .completed now = .ok s) (hanswered : AnsweredIn p t last.history) :
    Move p t { s with pending := [] }
  | fail {last s : Instance} {now : Timestamp} (message : String) (hlast : t.Ahead last)
      (h : last.transition .failed now = .ok s) :
    Move p t { s with pending := [], error := some message }
  | wait {last s : Instance} {signal : String} {node : NodeId} {deadline : Option Timestamp}
      {pending : List NodeId} {now : Timestamp} (hlast : t.Ahead last)
      (h : last.enterWait signal node deadline pending now = .ok s)
      (hanswered : AnsweredIn p t last.history) : Move p t s
  | giveUp {last s : Instance} {now : Timestamp} (hlast : t.Ahead last)
      (h : last.transition .cancelled now = .ok s) :
    Move p t { s with error := some "cancelled" }

/-- What a run with these entries in its books may store in the place of `t` when it has passed a
node: no delivery is recorded any more, and one that was recorded has succeeded. -/
structure Passed (p : Warrant) (books : List StepTrace) (t s : Instance) : Prop
    extends t.Ahead s where
  node : s.waitingNode = none
  delivered : s.delivered = none
  answered : ∀ node signal, t.pendingDelivery = some (node, signal) →
    p.answers t node signal books ∧ ∃ e l, books = e :: l ∧ e.outcome = .succeeded

/-! ### Every move keeps well-formedness -/

theorem Ahead.wellFormed (h : t.Ahead s) (ht : t.WellFormed) : s.WellFormed := by
  obtain ⟨hawaited, hdeadline, hnode, herror⟩ := (wellFormed_running h.running).1 ht
  refine (wellFormed_running h.status).2
    ⟨h.awaited.trans hawaited, h.deadline.trans hdeadline, ?_, h.error.trans herror⟩
  rcases h.delivery with ⟨hsnode, hsdelivered⟩ | ⟨hsnode, hsdelivered⟩
  · rw [hsnode, hsdelivered]
    exact hnode
  · simp [hsnode, hsdelivered]

/-- A final status takes all away that was waited for. -/
theorem WellFormed.ended (h : t.WellFormed) (ht : t.transition target now = .ok s)
    (hfinal : target.isFinal = true) :
    s.status = target ∧ s.awaited = none ∧ s.waitingNode = none ∧ s.deadline = none ∧
      s.delivered = none ∧ s.error = none := by
  obtain ⟨hallows, rfl⟩ := transition_eq ht
  have htarget : target ≠ .waiting ∧ target ≠ .running := by
    constructor <;> rintro rfl <;> simp [Status.isFinal] at hfinal
  have hopen : t.status.isFinal = false := by
    rw [Bool.eq_false_iff]
    intro hemptied
    rw [Status.not_allows_of_isFinal hemptied] at hallows
    simp at hallows
  have herror : t.error = none := by simpa [hopen] using h.sound
  by_cases hwaiting : t.status = .waiting
  · simp [hwaiting, htarget, herror]
  · have hawaited : t.awaited = none := by simpa [hwaiting] using h.awaits
    have hdeadline : t.deadline = none := by simpa [hwaiting] using h.deadline
    simp [hwaiting, hawaited, hdeadline, htarget, hfinal, herror]

theorem acceptSignal_eq {node : NodeId} {signal : Signal}
    (h : t.acceptSignal node signal now = .ok s) : ∃ u, t.transition .running now = .ok u ∧
      s = { u with waitingNode := some node, delivered := some signal } := by
  unfold acceptSignal at h
  cases hu : t.transition .running now with
  | error e => simp [hu, Except.map] at h
  | ok u =>
    rw [hu] at h
    cases h
    exact ⟨u, rfl, rfl⟩

theorem enterWait_eq {signal : String} {node : NodeId} {deadline : Option Timestamp}
    {pending : List NodeId} (h : t.enterWait signal node deadline pending now = .ok s) :
    ∃ u, t.transition .waiting now = .ok u ∧
      s = { u with awaited := some signal, waitingNode := some node, deadline, pending } := by
  unfold enterWait at h
  cases hu : t.transition .waiting now with
  | error e => simp [hu, Except.map] at h
  | ok u =>
    rw [hu] at h
    cases h
    exact ⟨u, rfl, rfl⟩

theorem expire_eq {signal message : String} (h : Sweeper.expire t now = .ok (s, signal, message)) :
    ∃ u, t.transition .timedOut now = .ok u ∧ s = { u with error := some message } := by
  unfold Sweeper.expire at h
  cases hu : t.transition .timedOut now with
  | error e => simp [hu, Except.map] at h
  | ok u =>
    rw [hu] at h
    cases h
    exact ⟨u, rfl, rfl⟩

theorem Move.wellFormed {p : Warrant} (h : Move p t s) (ht : t.WellFormed) :
    s.WellFormed := by
  cases h with
  | begin hcreated h =>
    obtain ⟨-, rfl⟩ := transition_eq h
    obtain ⟨hawaited, hnode, hdeadline, hdelivered, herror⟩ := (wellFormed_created hcreated).1 ht
    refine (wellFormed_running rfl).2 ?_
    simp [hcreated, hawaited, hnode, hdeadline, hdelivered, herror, Status.isFinal]
  | renew => exact ht
  | accept _ hwaits _ h =>
    have hwaiting : t.status = .waiting := by
      simp only [isWaitingFor, Bool.and_eq_true, beq_iff_eq] at hwaits
      exact hwaits.1
    obtain ⟨u, hu, rfl⟩ := acceptSignal_eq h
    obtain ⟨-, rfl⟩ := transition_eq hu
    obtain ⟨-, -, -, herror⟩ := (wellFormed_waiting hwaiting).1 ht
    refine (wellFormed_running rfl).2 ?_
    simp [hwaiting, herror]
  | cancel h =>
    obtain ⟨hstatus, hrest⟩ := ht.ended h rfl
    refine (wellFormed_final (by rw [hstatus]; rfl)).2 ?_
    simp [hstatus, hrest]
  | expire _ h =>
    obtain ⟨u, hu, rfl⟩ := expire_eq h
    obtain ⟨hstatus, hrest⟩ := ht.ended hu rfl
    refine (wellFormed_final (by rw [hstatus]; rfl)).2 ?_
    simp [hstatus, hrest]
  | complete hlast h =>
    obtain ⟨hstatus, hrest⟩ := (hlast.wellFormed ht).ended h rfl
    refine (wellFormed_final (by rw [hstatus]; rfl)).2 ?_
    simp [hstatus, hrest]
  | fail message hlast h =>
    obtain ⟨hstatus, hrest⟩ := (hlast.wellFormed ht).ended h rfl
    refine (wellFormed_final (by rw [hstatus]; rfl)).2 ?_
    simp [hstatus, hrest]
  | wait hlast h =>
    obtain ⟨u, hu, rfl⟩ := enterWait_eq h
    obtain ⟨-, rfl⟩ := transition_eq hu
    obtain ⟨-, -, -, herror⟩ := (wellFormed_running hlast.status).1 (hlast.wellFormed ht)
    refine (wellFormed_waiting rfl).2 ?_
    simp [herror]
  | giveUp hlast h =>
    obtain ⟨hstatus, hrest⟩ := (hlast.wellFormed ht).ended h rfl
    refine (wellFormed_final (by rw [hstatus]; rfl)).2 ?_
    simp [hstatus, hrest]

theorem Passed.wellFormed {p : Warrant} {books : List StepTrace} (h : Passed p books t s)
    (ht : t.WellFormed) : s.WellFormed := h.toAhead.wellFormed ht

end Instance

end DurableWorkflow

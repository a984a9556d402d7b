import DurableWorkflow.Proofs.Coordinator.Calls
import DurableWorkflow.Proofs.Recovery.Run

/-!
# The calls that move an instance on

Starting an instance, resuming it, and delivering a signal to it. Wherever a call is dropped or
ends, what is stored of the instance is alive: the claim stores the sketch that the life has
reached, the run of it moves on, and the last write stores the move in which the run has ended. A
signal is taken by the write that claims the instance (`signal_stays`).
-/

namespace DurableWorkflow

variable {C H R κ α β : Type} {p : Deployment C H R κ} {c : Coordinator C H R} {id : Uuid}
  {begun : C} {ks : List κ} {w : World R H}

/-- Wherever the operation is dropped or ends, `P` holds of what is stored of the instance. -/
def Operation.Stays (p : Deployment C H R κ) (id : Uuid) (P : Option Instance → Prop)
    (op : Operation C H R α) (w : World R H) : Prop :=
  Course.Always World.Idle p.schedule (Report.Fair p.options) (fun v => P (p.view v.store id))
    (fun _ _ => True) op.run w

/-! ### Operations piece by piece -/

instance {ω τ β : Type} : LawfulMonad (Course ω τ β) :=
  LawfulMonad.mk' _ Course.bind_done Course.pure_bind Course.bind_assoc

namespace Operation.Stays

variable {P : Option Instance → Prop} {k : α → Operation C H R β} {f : World R H → α × World R H}

theorem pure {a : α} (hw : P (p.view w.store id)) :
    Operation.Stays p id P (pure a : Operation C H R α) w := .done hw trivial

theorem crash (m : String) (hw : P (p.view w.store id)) :
    Operation.Stays p id P (Operation.crash m : Operation C H R α) w := Course.Always.crash m hw

theorem bind {op : Operation C H R α} (h : op.Stays p id P w)
    (hk : ∀ a v, P (p.view v.store id) → (k a).Stays p id P v) :
    (op >>= k).Stays p id P w := by
  refine Course.Always.bind h fun r v hv _ => ?_
  cases r with
  | ok a => exact hk a v hv
  | error e => exact .done hv trivial

/-- The leases that are released are no matter of the store. -/
theorem releasing {op : Operation C H R α} (operation : Nat) (h : op.Stays p id P w) :
    (Operation.releasing operation op).Stays p id P w := Course.Always.ensure h fun _ hv => hv

theorem mono {P' : Option Instance → Prop} {op : Operation C H R α} (h : op.Stays p id P w)
    (hP : ∀ s, P s → P' s) : op.Stays p id P' w := fun y hy =>
  ⟨hP _ (h y hy).1, fun _ _ => trivial⟩

end Operation.Stays

/-! ### Driving an instance -/

namespace Deployment

variable {base : List StepTrace} {x y : Sketch C κ} {s : Instance}

/-- What a run that has ended gives back. -/
def Yields (p : Deployment C H R κ) (id : Uuid) (begun : C) (ks : List κ) (base : List StepTrace)
    (r : Instance × Option (RunResult C)) : Prop :=
  ∃ result b x y, r = (b.extra, some result) ∧ b.context = result.context ∧
    b.ledger.trace = result.trace ∧ p.Ended id begun ks base result.outcome b x y

section

variable {s' : Instance} {now : Timestamp}

theorem Shows.started (hs : p.Shows id s x) (hcreated : x.status = .created)
    (h : s.transition .running now = .ok s') : p.Shows id s' { x with status := .running } := by
  have hstatus : s.status = .created := hs.status.trans hcreated
  unfold Instance.transition at h
  rw [hstatus] at h
  cases h
  exact ⟨⟨rfl, hs.context, hs.pending, hs.node, hs.awaited, hs.delivered, hs.history, hs.error⟩,
    hs.id, hs.workflow, hs.version⟩

theorem Shows.accepted {node : NodeId} {signal : Signal} (hs : p.Shows id s x)
    (hwaiting : x.status = .waiting) (hnode : x.node = some node)
    (h : s.acceptSignal node signal now = .ok s') : p.Shows id s' (x.accepted (p.key signal)) := by
  have hstatus : s.status = .waiting := hs.status.trans hwaiting
  unfold Instance.acceptSignal Instance.transition at h
  rw [hstatus] at h
  cases h
  exact ⟨⟨rfl, hs.context, hs.pending, hnode.symm, rfl, rfl, hs.history, hs.error⟩, hs.id,
    hs.workflow, hs.version⟩

end

end Deployment

end DurableWorkflow

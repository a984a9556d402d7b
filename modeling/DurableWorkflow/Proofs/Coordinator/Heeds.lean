import DurableWorkflow.Coordinator.Basic
import DurableWorkflow.Proofs.Course.Watch

/-!
# Operations under watch

`op.Heeds P Q w` says of an operation what it says of a course, where `Q` is about the value of an
operation that ends without an error.
-/

namespace DurableWorkflow

variable {C H R α β : Type} {P : Watch (World R H) (Board C H Instance) Report}
  {Q : α → World R H → Prop} {S : β → World R H → Prop} {F : World R H → Prop} {w : World R H}

/-- An action that looks at the world, or does what is no matter of the watch. -/
theorem Course.Heeds.update {f : World R H → α × World R H}
    (h : ∀ v, P.others w v → P.own v (f v).2 ∧ Q (f v).1 (f v).2) :
    (Course.update f : Errand C H R α).Heeds P Q w := fun v hv _ => h v hv

namespace Operation

/-- The operation is as the watch demands, and ends in `Q`, unless with an error. -/
def Heeds (P : Watch (World R H) (Board C H Instance) Report) (Q : α → World R H → Prop)
    (op : Operation C H R α) (w : World R H) : Prop :=
  Course.Heeds P (fun r v => ∀ a, r = .ok a → Q a v) op.run w

namespace Heeds

theorem pure {a : α} (h : Q a w) : Operation.Heeds P Q (pure a : Operation C H R α) w := by
  intro b hb
  cases hb
  exact h

theorem throw (e : CoordinatorError) :
    Operation.Heeds P Q (throw e : Operation C H R α) w := by
  intro a ha
  cases ha

theorem bind {op : Operation C H R α} {k : α → Operation C H R β} (h : op.Heeds P Q w)
    (hk : ∀ a v, Q a v → (k a).Heeds P S v) : (op >>= k).Heeds P S w := by
  refine Course.Heeds.bind h fun r v hr => ?_
  cases r with
  | ok a => exact hk a v (hr a rfl)
  | error e => exact fun b hb => by cases hb

theorem ofErrand {e : Errand C H R α} (h : e.Heeds P Q w) : (Operation.ofErrand e).Heeds P Q w :=
  Course.Heeds.bind h fun a v hq b hb => by
    cases hb
    exact hq

theorem orThrow {e : CoordinatorError} {o : Option α} (h : ∀ a ∈ o, Q a w) :
    (Operation.orThrow e o : Operation C H R α).Heeds P Q w := by
  cases o with
  | none => exact .throw e
  | some a => exact .pure (h a rfl)

theorem moved {r : Except TransitionError α} (h : ∀ a, r = .ok a → Q a w) :
    (Operation.moved r : Operation C H R α).Heeds P Q w := by
  cases r with
  | error e => exact .throw _
  | ok a => exact .pure (h a rfl)

theorem lift {r : Except CoordinatorError α} (h : ∀ a, r = .ok a → Q a w) :
    (liftM r : Operation C H R α).Heeds P Q w := h

theorem crash (m : String) : (Operation.crash m : Operation C H R α).Heeds P Q w :=
  .ofErrand (Q := Q) trivial

theorem update {f : World R H → α × World R H}
    (h : ∀ v, P.others w v → P.own v (f v).2 ∧ Q (f v).1 (f v).2) :
    (Operation.update f : Operation C H R α).Heeds P Q w := .ofErrand (.update h)

theorem now (hF : P.Stable F) (hw : F w) :
    (Operation.now : Operation C H R Timestamp).Heeds P (fun _ => F) w :=
  update (f := fun v => (v.wall, v)) fun v hv => ⟨P.own_refl v, hF hw hv⟩

theorem request {ask : R → Reply R α}
    (h : ∀ v, P.others w v → P.own v { v with store := (ask v.store).2 } ∧
      ∀ a, (ask v.store).1 = .ok a → Q a { v with store := (ask v.store).2 }) :
    (Operation.request ask : Operation C H R α).Heeds P Q w := by
  have hask : (Operation.update (Operation.onStore ask) : Operation C H R _).Heeds P
      (fun r v => ∀ a, r = .ok a → Q a v) w := update h
  refine hask.bind fun r v hr => ?_
  cases r with
  | ok a => exact .pure (hr a rfl)
  | error fault => exact .throw _

theorem releasing {op : Operation C H R α} (operation : Nat) (h : op.Heeds P (fun _ _ => True) w)
    (hrelease : ∀ v, P.own v (World.release operation v)) :
    (Operation.releasing operation op).Heeds P (fun _ _ => True) w := by
  have hall : (Course.ensure (World.release operation) op.run).Heeds P (fun _ _ => True) w :=
    Course.Heeds.ensure h hrelease
  exact hall.mono fun _ _ _ _ _ => trivial

end Heeds

end Operation

end DurableWorkflow

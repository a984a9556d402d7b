import DurableWorkflow.Proofs.Recovery.Calls
import DurableWorkflow.Proofs.Walk.Schedule

/-!
# Crashes leave no trace

A history of an instance begins where the instance is started. Signals are delivered to it, and it
is resumed; each of these calls may be dropped anywhere, any number of times, and requests may fail.
Whatever has happened, what is stored is a sketch of the one life that the context and the accepted
signals determine (`History.alive`). So an instance that waits or has ended is stored as if nothing
had been dropped (`History.transparent`).
-/

namespace DurableWorkflow

namespace Deployment

variable {C H R κ : Type}

variable {p : Deployment C H R κ} {id id' : Uuid} {begun : C} {ks : List κ} {w w' : World R H}

end Deployment

/-! ### An instance that is dropped twice -/

/-- A step that adds a digit to a number. -/
def figure (n : Nat) : Step Nat Unit where
  name := "figure"
  execute := .act (fun x => (10 * x.1 + n, x.2)) fun _ => .done .success

/-- A step that asks for a digit. -/
def enquiry : Step Nat Unit where
  name := "enquiry"
  execute := .done (.suspend "digit")
  onSignal signal :=
    let digit := match signal.payload with
      | .int n => n.toNat
      | _ => 0
    .act (fun x => (10 * x.1 + digit, x.2)) fun _ => .done .success
  maySuspend := true

def dialling : Program Nat Unit where
  id := "dialling"
  version := "1.0.0"
  calls := [.start (figure 1), .append (.step enquiry), .append (.step (figure 3))]

/-- Numbers are dialled in order, without compensation. -/
def dialled : Deployment Nat Unit Memory Json where
  kind := ⟨"Nat", fun n => some (.int n), fun j => match j with | .int n => some n.toNat | _ => none⟩
  options := { compensation := false }
  definition :=
    { id := "dialling", name := "", version := ⟨1, 0, 0, "", ""⟩, limit := none, root := 0
      graph := ⟨#[{ kind := .step (figure 1), next := some 1 },
        { kind := .step enquiry, next := some 2 }, { kind := .step (figure 3) }]⟩ }
  view := Memory.find?
  schedule := .inOrder
  key := (·.payload)

theorem dialled_sound : dialled.Sound where
  built := ⟨{}, dialling, rfl⟩
  blind node n s hn hkind := by
    have hfigure (k : Nat) : (figure k).Blind dialled.key := by
      refine ⟨.act (fun x y hxy => ?_) fun _ _ _ => .done _, fun _ _ _ => .done _⟩
      simp only [hxy]
    have henquiry : enquiry.Blind dialled.key := by
      refine ⟨.done _, fun x y hkey => .act (fun a b hab => ?_) fun _ _ _ => .done _⟩
      have hpayload : x.payload = y.payload := hkey
      simp only [hab, hpayload]
    match node with
    | 0 | 1 | 2 =>
      cases hn
      cases hkind
      first | exact hfigure _ | exact henquiry
    | node + 3 => simp [dialled, Graph.get?] at hn
  behavioural := Schedule.inOrder_behavioural _ _
  encodes _ := rfl
  decodes context json h := by
    cases h
    rfl
  uncompensated := rfl
  unlimited := rfl

/-- The run has not failed, and was not stopped. -/
def Report.isCalm (r : Report) : Bool :=
  match r.halt with
  | .drained | .suspended _ => true
  | _ => false

/-- What a call leaves that is dropped after so many turns. -/
def Operation.left (turns : Nat) (op : Operation Nat Unit Memory (Driven Nat))
    (w : World Memory Unit) : World Memory Unit :=
  (op.run.advance Report.isCalm turns w).2

/-- The instance that is started in the empty world. -/
def dialledId : Uuid := .timeOrdered 0 0

end DurableWorkflow

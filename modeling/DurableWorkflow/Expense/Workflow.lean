import DurableWorkflow.Amount
import DurableWorkflow.Definition
import DurableWorkflow.Json.Decode
import DurableWorkflow.Text.Blank

/-!
# The expense approval workflow

Small claims are approved at once, larger ones wait for a manager. For an approved claim budget is
reserved, and then the payment is scheduled and the receipt archived side by side. A payment that
cannot be made gives the budget back.
-/

/-! ## Expense claims -/

namespace DurableWorkflow

/-- What an employee wants back, and how far that has come. -/
structure ExpenseClaim where
  employee : String
  cents : Nat
  description : String := ""
  approved : Option Bool := none
  approver : Option String := none
  budgetReserved : Bool := false
  paymentScheduled : Bool := false
  receiptArchived : Bool := false
  deriving DecidableEq, Repr, Inhabited

namespace ExpenseClaim

def toJson (c : ExpenseClaim) : Json :=
  .obj [("employee", .str c.employee), ("amount_cents", .nat c.cents),
    ("description", .str c.description), ("approved", Json.ofOption .bool c.approved),
    ("approver", Json.ofOption .str c.approver), ("budget_reserved", .bool c.budgetReserved),
    ("payment_scheduled", .bool c.paymentScheduled),
    ("receipt_archived", .bool c.receiptArchived)]

def ofJson? (j : Json) : Option ExpenseClaim := do
  let fs ← Json.Fields.ofJson?
    ["employee", "amount_cents", "description", "approved", "approver", "budget_reserved",
      "payment_scheduled", "receipt_archived"] j
  some {
    employee := ← fs.required "employee" Json.toText?
    cents := ← fs.required "amount_cents" (Json.toNat? 64)
    description := ← fs.orElse "description" "" Json.toText?
    approved := ← fs.optional "approved" Json.toBool?
    approver := ← fs.optional "approver" Json.toText?
    budgetReserved := ← fs.orElse "budget_reserved" false Json.toBool?
    paymentScheduled := ← fs.orElse "payment_scheduled" false Json.toBool?
    receiptArchived := ← fs.orElse "receipt_archived" false Json.toBool? }

end ExpenseClaim

end DurableWorkflow

/-! ## The workflow -/

namespace DurableWorkflow.ExpenseClaim

/-- The signal by which a manager decides. -/
def approvalSignal : String := "manager-approval"

/-- Claims up to this amount need no manager. -/
def autoApproveLimit : Nat := 10000

/-- The largest amount of one payment. -/
def paymentLimit : Nat := 1000000

def approvalWindow : Nanos := Nanos.ofSeconds (72 * 60 * 60)

variable {H : Type}

/-- Work that looks at the claim and changes it at once. -/
def decide (f : ExpenseClaim → StepResult × ExpenseClaim) : Work (ExpenseClaim × H) StepResult :=
  Work.update fun s => ((f s.1).1, (f s.1).2, s.2)

/-- Work that changes the claim and succeeds. -/
def mark (f : ExpenseClaim → ExpenseClaim) : Work (ExpenseClaim × H) StepResult :=
  decide fun c => (.success, f c)

def validate : Step ExpenseClaim H where
  name := "validate-claim"
  canRetry := false
  execute := decide fun c =>
    if Text.isBlankText c.employee then (.failure (.failed "claim has no employee"), c)
    else if c.cents = 0 then (.failure (.failed "amount must be greater than zero"), c)
    else (.success, c)

def approve : Step ExpenseClaim H where
  name := "manager-approval"
  maySuspend := true
  execute := decide fun c =>
    if c.cents > autoApproveLimit then (.suspendFor approvalSignal approvalWindow, c)
    else
      (StepResult.success.withMetadata "approval" (.str "automatic"),
        { c with approved := some true, approver := some "auto" })
  onSignal := fun signal =>
    match (signal.payload.member "approved").toBool? with
    | none =>
      .done (.failure (.failed "approval payload needs a boolean 'approved' field"))
    | some approved =>
      let approver := (signal.payload.member "approver").toText?.getD "manager"
      mark fun c => { c with approved := some approved, approver := some approver }

def reserve : Step ExpenseClaim H where
  name := "reserve-budget"
  execute := mark fun c => { c with budgetReserved := true }
  compensate := some (mark fun c => { c with budgetReserved := false })

def pay : Step ExpenseClaim H where
  name := "schedule-payment"
  execute := decide fun c =>
    if c.cents > paymentLimit then
      (.failure (.failed (Amount.text c.cents ++ " exceeds the single payment limit of "
        ++ Amount.text paymentLimit)), c)
    else (.success, { c with paymentScheduled := true })

def archive : Step ExpenseClaim H where
  name := "archive-receipt"
  execute := mark fun c => { c with receiptArchived := true }

def reject : Step ExpenseClaim H where
  name := "close-rejected"
  canRetry := false
  execute := decide fun c =>
    (.failure (.failed ("claim rejected by " ++ c.approver.getD "manager")), c)

def workflowId : String := "expense-approval"

/-- The expense approval workflow. -/
def program : Program ExpenseClaim H where
  id := workflowId
  name := "Expense approval"
  version := "1.0.0"
  calls := [
    .start validate,
    .append (.step approve),
    .append (.choice (fun c => .ok (c.approved == some true)) [
      .whenTrue [.step reserve, .parallel [.single pay, .single archive]],
      .whenFalse [.step reject]])]

end DurableWorkflow.ExpenseClaim

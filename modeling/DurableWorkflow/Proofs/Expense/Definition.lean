import DurableWorkflow.Expense.Workflow
import DurableWorkflow.Proofs.Codec.Instance

/-!
# Expense claims and their workflow

Claims as JSON, and the graph that the program of the expense approval workflow compiles to.

### Expense claims as JSON

A claim that is read back is the one that was stored, and its amount has to fit.
-/

namespace DurableWorkflow

open Json

namespace Json

theorem toOption?_ofOption {α : Type} {f : Json → Option α} {g : α → Json} (hnull : f .null = none)
    (h : ∀ a, f (g a) = some a) (o : Option α) : toOption? f (ofOption g o) = some o := by
  cases o with
  | none => rfl
  | some a =>
    show toOption? f (g a) = some (some a)
    unfold toOption?
    split
    · next hj =>
      rw [← h a, hj, hnull]
    · rw [h a]
      rfl

theorem ofOption_injective {α : Type} {g : α → Json} (hnull : ∀ a, g a ≠ .null)
    (hg : ∀ a b, g a = g b → a = b) {o p : Option α} (h : ofOption g o = ofOption g p) : o = p := by
  cases o with
  | none =>
    cases p with
    | none => rfl
    | some b => exact absurd h.symm (hnull b)
  | some a =>
    cases p with
    | none => exact absurd h (hnull a)
    | some b => exact congrArg some (hg a b h)

end Json

namespace ExpenseClaim

/-- The members as they are stored, by name. -/
def slots (c : ExpenseClaim) : List (String × Option Json) :=
  [("amount_cents", some (.nat c.cents)), ("approved", some (ofOption .bool c.approved)),
    ("approver", some (ofOption .str c.approver)), ("budget_reserved", some (.bool c.budgetReserved)),
    ("description", some (.str c.description)), ("employee", some (.str c.employee)),
    ("payment_scheduled", some (.bool c.paymentScheduled)),
    ("receipt_archived", some (.bool c.receiptArchived))]

theorem canonical_toJson (c : ExpenseClaim) : c.toJson.canonical = .obj (filled c.slots) := by
  have happroved : (ofOption .bool c.approved).canonical = ofOption .bool c.approved := by
    cases c.approved <;> rfl
  have happrover : (ofOption .str c.approver).canonical = ofOption .str c.approver := by
    cases c.approver <;> rfl
  simp only [toJson, canonical, canonicalMembers, insertMember, happroved, happrover, filled, slots,
    nat, List.filterMap_cons, List.filterMap_nil, Option.map_some, String.reduceEq, String.reduceLT,
    reduceIte]

theorem nodup_slots (c : ExpenseClaim) : (c.slots.map (·.1)).Nodup := by
  simp [slots]

theorem canonical_injective {a b : ExpenseClaim} (h : a.toJson.canonical = b.toJson.canonical) : a = b := by
  rw [canonical_toJson, canonical_toJson] at h
  simp only [filled, slots, List.filterMap_cons, List.filterMap_nil, Option.map_some, nat, obj.injEq,
    List.cons.injEq, Prod.mk.injEq, str.injEq, int.injEq, bool.injEq, Int.ofNat_inj, true_and,
    and_true] at h
  obtain ⟨hcents, happroved, happrover, hreserved, hdescription, hemployee, hpaid, harchived⟩ := h
  have happroved := ofOption_injective (by simp) (by simp) happroved
  have happrover := ofOption_injective (by simp) (by simp) happrover
  cases a
  cases b
  simp_all only

theorem ofJson?_canonical {c : ExpenseClaim} (h : c.cents < twoTo 64) :
    ofJson? c.toJson.canonical = some c := by
  have hnd := c.nodup_slots
  have happroved := toOption?_ofOption (f := toBool?) (g := .bool) rfl (fun _ => rfl) c.approved
  have happrover := toOption?_ofOption (f := toText?) (g := .str) rfl (fun _ => rfl) c.approver
  have hbool (b : Bool) : toBool? (.bool b) = some b := rfl
  rw [ofJson?, canonical_toJson]
  refine some_bind (Fields.ofJson?_filled _ hnd) ?_
  refine some_bind (Fields.required_filled hnd (by simp [slots]) (toText?_str c.employee)) ?_
  refine some_bind (Fields.required_filled hnd (by simp [slots]) (toNat?_nat h)) ?_
  refine some_bind (Fields.orElse_filled hnd (by simp [slots]) (toText?_str c.description)) ?_
  refine some_bind (Fields.orElse_filled hnd (by simp [slots]) happroved) ?_
  refine some_bind (Fields.orElse_filled hnd (by simp [slots]) happrover) ?_
  refine some_bind (Fields.orElse_filled hnd (by simp [slots]) (hbool c.budgetReserved)) ?_
  refine some_bind (Fields.orElse_filled hnd (by simp [slots]) (hbool c.paymentScheduled)) ?_
  refine some_bind (Fields.orElse_filled hnd (by simp [slots]) (hbool c.receiptArchived)) ?_
  rfl

/-- What is read is what was written. -/
theorem eq_of_ofJson? {b c : ExpenseClaim} (h : ofJson? c.toJson.canonical = some b) : b = c := by
  suffices hcents : c.cents < twoTo 64 by
    rw [ofJson?_canonical hcents] at h
    exact (Option.some.inj h).symm
  simp only [ofJson?, Option.bind_eq_bind, Option.bind_eq_some_iff] at h
  obtain ⟨fs, hfs, employee, -, cents, hcents, -⟩ := h
  rw [canonical_toJson, Fields.ofJson?_filled _ c.nodup_slots] at hfs
  cases hfs
  obtain ⟨j, hj, hcents⟩ := Fields.required_some hcents
  have hslot : ("amount_cents", some (.nat c.cents)) ∈ c.slots := by simp [slots]
  rw [Fields.get?_filled c.nodup_slots hslot] at hj
  cases hj
  unfold toNat? nat at hcents
  simp only [Option.ite_none_right_eq_some, Bool.and_eq_true, decide_eq_true_eq] at hcents
  omega

end ExpenseClaim

end DurableWorkflow

/-!
### The graph of the expense approval workflow

The program compiles to eight nodes: 0 validates the claim, 1 approves it or waits for a manager, and 2
chooses. Behind 3, which reserves the budget, 4 runs the payment 5 and the archiving 6 side by side; 7
rejects the claim.
-/

namespace DurableWorkflow.ExpenseClaim

variable {H : Type} (registry : Registry ExpenseClaim H)

def isApproved : Predicate ExpenseClaim := fun c => .ok (c.approved == some true)

def graph : Graph ExpenseClaim H :=
  ⟨#[{ kind := .step validate, next := some 1 }, { kind := .step approve, next := some 2 },
    { kind := .conditional isApproved (some 3) (some 7) }, { kind := .step reserve, next := some 4 },
    { kind := .parallel [5, 6] }, { kind := .step pay }, { kind := .step archive },
    { kind := .step reject }]⟩

def definition : Definition ExpenseClaim H where
  id := workflowId
  name := "Expense approval"
  version := ⟨1, 0, 0, "", ""⟩
  limit := none
  root := 0
  graph := graph

/-! ### Compiling the program -/

/-- What has been said of the workflow after the first two steps. -/
def begun : Outline ExpenseClaim H where
  draft := { graph := ⟨#[{ kind := .step validate, next := some 1 }, { kind := .step approve }]⟩ }
  chain := { entry := some 0, exits := [1] }
  started := true

/-- The draft in which the arms of the choice are compiled. -/
def undecided : Draft ExpenseClaim H where
  graph := ⟨#[{ kind := .step validate, next := some 1 }, { kind := .step approve, next := some 2 },
    { kind := .conditional isApproved none none }]⟩

def approving : Draft ExpenseClaim H where
  graph := ⟨undecided.graph.nodes ++ #[{ kind := .step reserve, next := some 4 },
    { kind := .parallel [5, 6] }, { kind := .step pay }, { kind := .step archive }]⟩

def rejecting : Draft ExpenseClaim H where
  graph := ⟨approving.graph.nodes.push { kind := .step reject }⟩

theorem begin_program : Outline.begin (C := ExpenseClaim) (H := H) workflowId
    (.ok ⟨1, 0, 0, "", ""⟩) "1.0.0" = {} := by
  have hid : isValidId workflowId = true := by rfl
  rw [Outline.begin, hid]
  rfl

theorem call_steps : (({} : Outline ExpenseClaim H).call registry (.start validate)).call registry
    (.append (.step approve)) = begun := rfl

theorem call_append (item : Item ExpenseClaim H) :
    (begun (H := H)).call registry (.append item) = begun.append registry item := by
  rw [Outline.call]
  exact if_pos rfl

theorem compile_whenTrue : compileItems registry ⟨false, false⟩ {} (undecided (H := H))
    [.step reserve, .parallel [.single pay, .single archive]] =
      ({ entry := some 3, exits := [4] }, approving) := rfl

theorem compile_whenFalse : compileItems registry ⟨false, false⟩ {} (approving (H := H))
    [.step reject] = ({ entry := some 7, exits := [7] }, rejecting) := rfl

theorem compile_choice : Item.compile registry ⟨false, false⟩ (begun (H := H)).chain begun.draft
    (.choice isApproved [
      .whenTrue [.step reserve, .parallel [.single pay, .single archive]],
      .whenFalse [.step reject]]) = ({ entry := some 0, exits := [4, 7] }, { graph }) := by
  have harms : compileArms registry ⟨false, false⟩ {} (undecided (H := H)) [
      .whenTrue [.step reserve, .parallel [.single pay, .single archive]],
      .whenFalse [.step reject]] =
        (⟨some { entry := some 3, exits := [4] }, some { entry := some 7, exits := [7] }⟩,
          rejecting) := by
    rw [compileArms, compileArms, compileArms]
    simp only [compile_whenTrue]
    rfl
  have hpush : (begun (H := H)).draft.push (.conditional isApproved none none) =
      (2, { graph := ⟨(begun (H := H)).draft.graph.nodes.push
        { kind := .conditional isApproved none none }⟩ }) := rfl
  have hattach : Draft.attach { graph := ⟨(begun (H := H)).draft.graph.nodes.push
        { kind := .conditional isApproved none none }⟩ } ⟨false, false⟩ (begun (H := H)).chain 2 =
      ({ entry := some 0, exits := [2] }, undecided) := rfl
  rw [Item.compile]
  simp only [hpush, hattach, harms]
  rfl

/-- The program compiles, and this is the graph. -/
theorem compile_program : (program (H := H)).compile registry = .ok definition := by
  have htext : (program (H := H)).version = "1.0.0" := rfl
  have hversion : Version.parse "1.0.0" = .ok ⟨1, 0, 0, "", ""⟩ := by rfl
  have hid : (program (H := H)).id = workflowId := rfl
  have hprogram : (program (H := H)).calls = [.start validate, .append (.step approve),
      .append (.choice isApproved [
        .whenTrue [.step reserve, .parallel [.single pay, .single archive]],
        .whenFalse [.step reject]])] := rfl
  let whole : Outline ExpenseClaim H :=
    { draft := { graph }, chain := { entry := some 0, exits := [4, 7] }, started := true }
  have hcalls : program.calls.foldl (fun (o : Outline ExpenseClaim H) c => o.call registry c) {} =
      whole := by
    rw [hprogram, List.foldl_cons, List.foldl_cons, call_steps, List.foldl_cons, List.foldl_nil]
    rw [call_append, Outline.append, compile_choice]
    rfl
  unfold Program.compile
  simp only [htext, hversion, hid, begin_program, hcalls]
  rfl

end DurableWorkflow.ExpenseClaim

import DurableWorkflow.Proofs.Coordinator.Charter
import DurableWorkflow.Proofs.Expense.Definition

/-!
# The charter of expense claims

A life of a claim has two phases: before a manager's signal has been accepted, and after, when the
phase says how the manager has decided. What holds of the claim at each node of the graph is `Ahead`;
what holds all the way is that a payment was warranted (`Live`).
-/

namespace DurableWorkflow

/-- How a signal decides: its payload says whether the claim is approved, or nothing. -/
def Signal.verdict (s : Signal) : Option Bool := (s.payload.member "approved").toBool?

namespace ExpenseClaim

/-- No manager has decided, or a manager has, by a signal with this verdict. -/
abbrev Phase := Option (Option Bool)

/-- What the choice finds. -/
def Decided : Phase → ExpenseClaim → Prop
  | none, c => c.cents ≤ autoApproveLimit ∧ c.approved = some true
  | some verdict, c => autoApproveLimit < c.cents ∧ verdict.isSome ∧ c.approved = verdict

/-- The claim is small, or a manager has approved it. -/
def Warranted (i : Phase) (cents : Nat) : Prop :=
  cents ≤ autoApproveLimit ∧ i = none ∨ i = some (some true)

/-- All the way the amount stays, and what is paid may be. -/
structure Live (cents : Nat) (i : Phase) (c : ExpenseClaim) : Prop where
  amount : c.cents = cents
  large : i.isSome → autoApproveLimit < cents
  paid : c.paymentScheduled = true → cents ≤ paymentLimit ∧ Warranted i cents

/-- The claim has been approved. -/
structure Cleared (i : Phase) (c : ExpenseClaim) : Prop where
  decided : Decided i c
  approved : c.approved = some true

/-- What holds with these nodes ahead. -/
inductive Ahead : Phase → List NodeId → ExpenseClaim → Prop
  | validate (c : ExpenseClaim) : Ahead none [0] c
  | approve (c : ExpenseClaim) : Ahead none [1] c
  | choose {i : Phase} {c : ExpenseClaim} (h : Decided i c) : Ahead i [2] c
  | reserve {i : Phase} {c : ExpenseClaim} (h : Cleared i c) : Ahead i [3] c
  | split {i : Phase} {c : ExpenseClaim} (h : Cleared i c) (hreserved : c.budgetReserved = true) :
    Ahead i [4] c
  | reject {i : Phase} {c : ExpenseClaim} (h : Decided i c) : Ahead i [7] c
  | done {i : Phase} {c : ExpenseClaim} (h : Cleared i c) (hreserved : c.budgetReserved = true)
    (hpaid : c.paymentScheduled = true) (harchived : c.receiptArchived = true) : Ahead i [] c

/-- What holds while a manager's signal is on its way. -/
structure Told (i : Phase) (node : NodeId) (pending : List NodeId) (signal : Signal)
    (c : ExpenseClaim) : Prop where
  node : node = 1
  pending : pending = []
  name : signal.name = approvalSignal
  verdict : i = some signal.verdict
  large : autoApproveLimit < c.cents

/-- What holds while the claim waits for a manager. -/
structure Waits (i : Phase) (w : Suspension) (c : ExpenseClaim) : Prop where
  none : i = none
  signal : w.signal = approvalSignal
  node : w.node = 1
  pending : w.pending = []
  large : autoApproveLimit < c.cents

def assertions (cents : Nat) (i : Phase) : Assertions ExpenseClaim where
  ahead := Ahead i
  told := Told i
  waits := Waits i
  live := Live cents i

def charter (cents : Nat) : Charter ExpenseClaim Phase where
  workflow := workflowId
  root := 0
  encode c := some c.toJson.canonical
  phase := assertions cents
  next _ signal := some signal.verdict

variable {H : Type} {cents : Nat} {i j : Phase} {c : ExpenseClaim}

theorem Cleared.warranted (h : Cleared i c) : Warranted i c.cents := by
  obtain ⟨hdecided, happroved⟩ := h
  cases i with
  | none => exact .inl ⟨hdecided.1, rfl⟩
  | some verdict => exact .inr (congrArg some (hdecided.2.2.symm.trans happroved))

theorem Cleared.congr {b : ExpenseClaim} (h : Cleared i c) (hcents : b.cents = c.cents)
    (hsame : b.approved = c.approved) : Cleared i b := by
  obtain ⟨hdecided, happroved⟩ := h
  refine ⟨?_, hsame.trans happroved⟩
  cases i with
  | none => exact ⟨hcents ▸ hdecided.1, hsame.trans hdecided.2⟩
  | some verdict => exact ⟨hcents ▸ hdecided.1, hdecided.2.1, hsame.trans hdecided.2.2⟩

/-! ### The steps -/

section

variable {R G : ExpenseClaim → ExpenseClaim → Prop} {K : Contract ExpenseClaim}

/-- A step that looks at the claim and changes it at once. It may be tried again after it has. -/
theorem decide_meets {f : ExpenseClaim → StepResult × ExpenseClaim} (hK : K.Lasts R)
    (h : ∀ c, K.pre c → G c (f c).2 ∧ K.pre (f c).2 ∧ K.Outcome (f c).1.outcome (f c).2) :
    (decide f : Work (ExpenseClaim × H) StepResult).Meets R G K := by
  intro c m hc
  refine ⟨hc, trivial, fun t ht => ?_⟩
  obtain ⟨hG, hpre, houtcome⟩ := h t.1 (hK.pre c t.1 hc ht)
  exact ⟨hG, hpre, trivial, houtcome⟩

theorem mark_meets {f : ExpenseClaim → ExpenseClaim} (hK : K.Lasts R)
    (h : ∀ c, K.pre c → G c (f c) ∧ K.pre (f c) ∧ K.post (f c)) :
    (mark f : Work (ExpenseClaim × H) StepResult).Meets R G K :=
  decide_meets hK h

end

theorem live_congr {b : ExpenseClaim} (hcents : b.cents = c.cents)
    (hpaid : b.paymentScheduled = c.paymentScheduled) : (assertions cents i).Spares c b :=
  fun h => ⟨hcents.trans h.amount, h.large, fun hb => h.paid (hpaid.symm.trans hb)⟩

theorem validate_meets : (validate (H := H)).execute.Meets Eq (assertions cents i).Spares
    ((assertions cents i).contract (Ahead i [0]) 0 (some 1) []) := by
  unfold validate
  dsimp only
  refine decide_meets (Contract.lasts_eq _) fun c hc => ?_
  cases hc
  split
  · exact ⟨fun h => h, .validate c, .validate c⟩
  · split
    · exact ⟨fun h => h, .validate c, .validate c⟩
    · exact ⟨fun h => h, .validate c, .approve c⟩

theorem approve_meets : (approve (H := H)).execute.Meets Eq (assertions cents i).Spares
    ((assertions cents i).contract (Ahead i [1]) 1 (some 2) []) := by
  unfold approve
  dsimp only
  refine decide_meets (Contract.lasts_eq _) fun c hc => ?_
  cases hc
  split
  · next hlarge => exact ⟨fun h => h, .approve c, rfl, rfl, rfl, rfl, hlarge⟩
  · next hsmall => exact ⟨live_congr rfl rfl, .approve _, .choose ⟨Nat.le_of_not_lt hsmall, rfl⟩⟩

theorem reserve_meets : (reserve (H := H)).execute.Meets Eq (assertions cents i).Spares
    ((assertions cents i).contract (Ahead i [3]) 3 (some 4) []) := by
  unfold reserve
  dsimp only
  refine mark_meets (Contract.lasts_eq _) fun c hc => ?_
  cases hc with
  | reserve hcleared =>
    have hcleared' : Cleared i { c with budgetReserved := true } := hcleared.congr rfl rfl
    exact ⟨live_congr rfl rfl, .reserve hcleared', .split hcleared' rfl⟩

theorem reject_meets : (reject (H := H)).execute.Meets Eq (assertions cents i).Spares
    ((assertions cents i).contract (Ahead i [7]) 7 none []) := by
  unfold reject
  dsimp only
  exact decide_meets (Contract.lasts_eq _) fun _ hc => ⟨fun h => h, hc, hc⟩

/-- The manager's signal says how the claim is decided, or the step fails. -/
theorem approve_told (node : NodeId) (pending : List NodeId) (signal : Signal) :
    ((approve (H := H)).onSignal signal).Meets Eq (assertions cents i).Spares
      ((assertions cents i).contract (Told i node pending signal) node (some 2) pending.reverse) := by
  have hverdict : signal.verdict = (signal.payload.member "approved").toBool? := rfl
  unfold approve
  dsimp only
  rw [← hverdict]
  cases hpayload : signal.verdict with
  | none => exact fun c m hc => ⟨hc, trivial, hc⟩
  | some approved =>
    refine mark_meets (Contract.lasts_eq _) fun c hc => ?_
    have hc : Told i node pending signal c := hc
    obtain ⟨rfl, rfl, hname, rfl, hlarge⟩ := hc
    refine ⟨live_congr rfl rfl, ⟨rfl, rfl, hname, rfl, hlarge⟩, .choose ?_⟩
    rw [hpayload]
    exact ⟨hlarge, rfl, rfl⟩

/-! ### Side by side -/

/-- What the payment and the archiving do to the claim while the other is under way. -/
structure Beyond (c b : ExpenseClaim) : Prop where
  cents : b.cents = c.cents
  approved : b.approved = c.approved
  reserved : b.budgetReserved = c.budgetReserved
  paid : c.paymentScheduled = true → b.paymentScheduled = true
  archived : c.receiptArchived = true → b.receiptArchived = true

theorem pay_branch (h : Cleared i c) : (assertions cents i).Branch (graph (H := H)) Beyond c 5
    (·.paymentScheduled = true) := by
  have hlasts : (⟨Cleared i, (·.paymentScheduled = true), fun _ _ _ => True⟩ :
      Contract ExpenseClaim).Lasts Beyond :=
    ⟨fun _ _ hc hb => hc.congr hb.cents hb.approved, fun _ _ hc hb => hb.paid hc, fun _ _ _ _ _ _ => trivial⟩
  refine ⟨pay, Cleared i, rfl, h, hlasts, ?_⟩
  unfold pay
  dsimp only
  refine decide_meets hlasts fun c hc => ?_
  have hc : Cleared i c := hc
  split
  · exact ⟨⟨fun h => h, rfl, rfl, rfl, fun h => h, fun h => h⟩, hc, hc⟩
  · next hlimit =>
    refine ⟨⟨fun hlive => ⟨hlive.amount, hlive.large, fun _ => ?_⟩, rfl, rfl, rfl, fun _ => rfl,
      fun h => h⟩, hc.congr rfl rfl, rfl⟩
    have hamount : c.cents = cents := hlive.amount
    rw [← hamount]
    exact ⟨Nat.le_of_not_lt hlimit, hc.warranted⟩

theorem archive_branch (c : ExpenseClaim) : (assertions cents i).Branch (graph (H := H)) Beyond c 6
    (·.receiptArchived = true) := by
  have hlasts : (⟨fun _ => True, (·.receiptArchived = true), fun _ _ _ => True⟩ :
      Contract ExpenseClaim).Lasts Beyond :=
    ⟨fun _ _ _ _ => trivial, fun _ _ hc hb => hb.archived hc, fun _ _ _ _ _ _ => trivial⟩
  refine ⟨archive, fun _ => True, rfl, trivial, hlasts, ?_⟩
  unfold archive
  dsimp only
  refine mark_meets hlasts fun c _ => ?_
  exact ⟨⟨live_congr rfl rfl, rfl, rfl, rfl, fun h => h, fun _ => rfl⟩, trivial, rfl⟩

/-- Both branches lead to the end. -/
theorem split_parallel (h : Cleared i c) (hreserved : c.budgetReserved = true) :
    (assertions cents i).Split (graph (H := H)) c [5, 6] (Ahead i []) Beyond
      [(5, (·.paymentScheduled = true)), (6, (·.receiptArchived = true))] where
  refl _ := ⟨rfl, rfl, rfl, fun h => h, fun h => h⟩
  trans a b c hab hbc := ⟨hbc.cents.trans hab.cents, hbc.approved.trans hab.approved,
    hbc.reserved.trans hab.reserved, fun h => hbc.paid (hab.paid h),
    fun h => hbc.archived (hab.archived h)⟩
  nodes := rfl
  branches x hx := by
    rcases List.mem_cons.1 hx with rfl | hx
    · exact pay_branch h
    · obtain rfl := List.mem_singleton.1 hx
      exact archive_branch c
  any := by simp
  goal b hb hdone := by
    obtain ⟨hpaid, harchived⟩ := List.forall_mem_cons.1 hdone
    exact .done (h.congr hb.cents hb.approved) (hb.reserved.trans hreserved) hpaid
      (harchived _ (List.mem_singleton.2 rfl))

/-! ### The graph -/

theorem fits (cents : Nat) (i : Phase) : (assertions cents i).Fits (graph (H := H)) where
  step {node ahead n s} hn hkind := by
    intro c m hc
    have hc : Ahead i (node :: ahead) c := hc
    cases hc with
    | validate =>
      obtain rfl := Option.some.inj hn
      cases hkind
      exact validate_meets c m (.validate c)
    | approve =>
      obtain rfl := Option.some.inj hn
      cases hkind
      exact approve_meets c m (.approve c)
    | choose | split =>
      obtain rfl := Option.some.inj hn
      cases hkind
    | reserve h =>
      obtain rfl := Option.some.inj hn
      cases hkind
      exact reserve_meets c m (.reserve h)
    | reject h =>
      obtain rfl := Option.some.inj hn
      cases hkind
      exact reject_meets c m (.reject h)
  choice {node ahead n holds t e b c} hn hkind hc hb := by
    have hc : Ahead i (node :: ahead) c := hc
    cases hc with
    | choose h =>
      obtain rfl := Option.some.inj hn
      cases hkind
      obtain rfl : (c.approved == some true) = b := Except.ok.inj hb
      refine ⟨?_, fun hnone => ?_⟩
      · show Ahead i (((if (c.approved == some true) = true then some 3 else some 7).or none).toList ++ []) c
        split
        · next happroved => exact .reserve ⟨h, beq_iff_eq.1 happroved⟩
        · exact .reject h
      · split at hnone <;> simp at hnone
    | validate | approve | reserve | reject | split =>
      obtain rfl := Option.some.inj hn
      cases hkind
  parallel {node ahead n children c} hn hkind hc := by
    have hc : Ahead i (node :: ahead) c := hc
    cases hc with
    | split h hreserved =>
      obtain rfl := Option.some.inj hn
      cases hkind
      exact ⟨_, _, split_parallel h hreserved⟩
    | validate | approve | choose | reserve | reject =>
      obtain rfl := Option.some.inj hn
      cases hkind
  sequence {node ahead n children c} hn hkind hc := by
    have hc : Ahead i (node :: ahead) c := hc
    cases hc <;> (obtain rfl := Option.some.inj hn; cases hkind)
  delay {node ahead n d c} hn hkind hc := by
    have hc : Ahead i (node :: ahead) c := hc
    cases hc <;> (obtain rfl := Option.some.inj hn; cases hkind)
  signal {node pending signal n s} hn hs := by
    intro c m hc
    have hc : Told i node pending signal c := hc
    obtain rfl := hc.node
    obtain rfl := Option.some.inj hn
    obtain rfl := Option.some.inj hs
    exact approve_told 1 pending signal c m hc

theorem charter_fits (cents : Nat) : (charter cents).Fits (definition (H := H)) where
  root := rfl
  graph := fits cents
  undo i x hx work hwork := by
    have hsteps : (definition (H := H)).graph.steps = [(0, validate), (1, approve), (3, reserve),
        (5, pay), (6, archive), (7, reject)] := rfl
    rw [hsteps] at hx
    simp only [List.mem_cons, List.not_mem_nil, or_false] at hx
    obtain rfl | rfl | rfl | rfl | rfl | rfl := hx
    · cases hwork
    · cases hwork
    · obtain rfl := Option.some.inj hwork
      exact fun s => ⟨live_congr rfl rfl, trivial⟩
    · cases hwork
    · cases hwork
    · cases hwork

theorem charter_accepts (cents : Nat) : (charter cents).Accepts := by
  intro i w signal c hwaits hlive hname
  have hwaits : Waits i w c := hwaits
  have hlive : Live cents i c := hlive
  obtain ⟨rfl, hsignal, hnode, hpending, hlarge⟩ := hwaits
  have hamount := hlive.amount
  refine ⟨⟨hamount, fun _ => hamount ▸ hlarge, fun hpaid => ?_⟩, hnode, hpending,
    hname.symm.trans hsignal, rfl, hlarge⟩
  obtain ⟨-, ⟨hsmall, -⟩ | hnone⟩ := hlive.paid hpaid
  · omega
  · cases hnone

/-! ### The phase of a version -/

theorem Decided.unique (hi : Decided i c) (hj : Decided j c) : i = j := by
  cases i with
  | none =>
    cases j with
    | none => rfl
    | some verdict => exact absurd hj.1 (Nat.not_lt.2 hi.1)
  | some verdict =>
    cases j with
    | none => exact absurd hi.1 (Nat.not_lt.2 hj.1)
    | some verdict' => exact congrArg some (hi.2.2.symm.trans hj.2.2)

theorem Ahead.unique {nodes : List NodeId} (hi : Ahead i nodes c) (hj : Ahead j nodes c) : i = j := by
  cases hi with
  | validate | approve =>
    cases hj
    rfl
  | choose hi =>
    cases hj with
    | choose hj => exact hi.unique hj
  | reserve hi =>
    cases hj with
    | reserve hj => exact hi.decided.unique hj.decided
  | split hi =>
    cases hj with
    | split hj => exact hi.decided.unique hj.decided
  | reject hi =>
    cases hj with
    | reject hj => exact hi.unique hj
  | done hi =>
    cases hj with
    | done hj => exact hi.decided.unique hj.decided

/-- A version that is not final is lawful in one phase only. -/
theorem lawful_unique {s : Instance} (hopen : s.status.isFinal = false)
    (hi : (charter cents).Lawful i s) (hj : (charter cents).Lawful j s) : i = j := by
  obtain ⟨-, c, hc, -, hi⟩ := hi
  obtain ⟨-, b, hb, -, hj⟩ := hj
  have hc : some c.toJson.canonical = some s.context := hc
  have hb : some b.toJson.canonical = some s.context := hb
  obtain rfl := canonical_injective (Option.some.inj (hc.trans hb.symm))
  have hbegins {start : StartPoint} (hi : (assertions cents i).Begins 0 start c)
      (hj : (assertions cents j).Begins 0 start c) : i = j := by
    cases start with
    | root => exact Ahead.unique hi hj
    | frontier nodes => exact Ahead.unique hi hj
    | signal node pending signal =>
      have hi : Told i node pending signal c := hi
      have hj : Told j node pending signal c := hj
      exact hi.verdict.trans hj.verdict.symm
  cases hstatus : s.status with
  | created | running =>
    simp only [Assertions.Stands, hstatus] at hi hj
    exact hbegins hi hj
  | waiting =>
    simp only [Assertions.Stands, hstatus] at hi hj
    obtain ⟨w, -, -, -, hi⟩ := hi
    obtain ⟨v, -, -, -, hj⟩ := hj
    have hi : Waits i w c := hi
    have hj : Waits j v c := hj
    exact hi.none.trans hj.none.symm
  | completed | failed | cancelled | timedOut => simp [hstatus, Status.isFinal] at hopen

end ExpenseClaim

end DurableWorkflow

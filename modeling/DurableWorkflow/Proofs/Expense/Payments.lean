import DurableWorkflow.CommandLine.Service
import DurableWorkflow.Proofs.Expense.Charter
import DurableWorkflow.Proofs.System.Rule

/-!
# What is paid

Whatever coordinators and sweepers do with an expense claim, what is stored of it tells of a payment
only if the amount is within the limit, and small or approved by a manager. It has completed only with
everything done, and never after a manager has refused.
-/

namespace DurableWorkflow

variable {H R : Type} {view : R → Uuid → Option Instance}

open ExpenseClaim

/-- A coordinator of expense claims that has nothing but the expense workflow under its name, or one
that has nothing under this name. -/
inductive Coordinator.Bundled : {C : Type} → Coordinator C H R → Prop
  | claims (c : Coordinator ExpenseClaim H R) (hkind : c.kind = CommandLine.claimKind)
    (h : ∀ d ∈ c.definitions, d.id = workflowId → ∃ registry, program.compile registry = .ok d) :
    Bundled c
  | other {C : Type} (c : Coordinator C H R) (h : ∀ d ∈ c.definitions, d.id ≠ workflowId) :
    Bundled c

/-- A call that goes through such coordinators only. -/
def Demand.Bundled (t : Demand H R) : Prop := ∀ c ∈ t.coordinators, c.Bundled

/-- The instance has accepted a manager's signal whose payload says whether the claim is approved. -/
def Journal.Accepted (j : Journal) (id : Uuid) (approved : Bool) : Prop :=
  ∃ call s node signal, ⟨call, .stored s⟩ ∈ j ∧ s.id = id ∧
    s.pendingDelivery = some (node, signal) ∧ signal.name = approvalSignal ∧
      signal.payload.member "approved" = .bool approved

/-- The instance was created for this claim, whoever has created it. -/
def Journal.For (j : Journal) (id : Uuid) (claim : ExpenseClaim) : Prop :=
  ∀ call s, ⟨call, .created s⟩ ∈ j → s.id = id →
    s.workflow = workflowId ∧ s.context = claim.toJson.canonical

namespace ExpenseClaim

variable {cents : Nat} {id : Uuid} {i : Phase} {j j' : Journal} {s : Instance} {approved : Bool}

theorem registered {c : Coordinator ExpenseClaim H R} (hkind : c.kind = CommandLine.claimKind)
    (h : ∀ d ∈ c.definitions, d.id = workflowId → ∃ registry, program.compile registry = .ok d) :
    (charter cents).Registered c where
  fits d hd hid := by
    obtain ⟨registry, hcompile⟩ := h d hd hid
    rw [compile_program] at hcompile
    cases hcompile
    exact charter_fits cents
  encode := by
    rw [hkind]
    rfl
  decode a b k ha hb := by
    obtain rfl := Option.some.inj ha
    obtain hencode | hdecode := hb
    · exact canonical_injective (Option.some.inj hencode)
    · rw [hkind] at hdecode
      exact eq_of_ofJson? hdecode

theorem drives_of_bundled {C : Type} {c : Coordinator C H R} (h : c.Bundled) :
    ((charter cents).rule id).Drives view c := by
  cases h with
  | claims _ hkind h => exact Charter.drives (registered hkind h) id
  | other _ h => exact Charter.drives_other h id

/-! ### The journal of a claim -/

/-- A lawful version that records a signal is told of it. -/
theorem told_of_lawful {node : NodeId} {signal : Signal} (h : (charter cents).Lawful i s)
    (hdelivery : s.pendingDelivery = some (node, signal)) :
    i = some signal.verdict ∧ signal.name = approvalSignal := by
  obtain ⟨-, c, -, -, hstands⟩ := h
  have hrunning := Instance.running_of_pendingDelivery (s := s) (by simp [hdelivery])
  have hsame : { s with status := .running } = s := by rw [← hrunning]
  simp only [Assertions.Stands, hrunning, hsame, Coordinator.restartPoint, hdelivery] at hstands
  have htold : Told i node s.pending signal c := hstands
  exact ⟨htold.verdict, htold.name⟩

theorem member_of_verdict {signal : Signal} (h : signal.verdict = some approved) :
    signal.payload.member "approved" = .bool approved := by
  unfold Signal.verdict Json.toBool? at h
  split at h
  · next b hb =>
    cases h
    exact hb
  · cases h

/-- Every version is lawful, in a phase that begins with the acceptance of a signal; and where one
has been accepted, what is stored is so in its phase. -/
structure Keeps (cents : Nat) (id : Uuid) (j : Journal) : Prop where
  lawful : ∀ e ∈ j, ∀ s, e.deed.version? = some s → s.id = id → ∃ i, (charter cents).Lawful i s ∧
    ∀ b, i = some (some b) → j.Accepted id b
  decided : j.Unique → ∀ b, j.Accepted id b → ∀ s, j.current id = some s →
    (charter cents).Lawful (some (some b)) s

theorem accepted_mono {p : Nat → Prop} (h : j.Grows p j') (hj : j.Accepted id approved) :
    j'.Accepted id approved := by
  obtain ⟨call, s, node, signal, hs, hpayload⟩ := hj
  exact ⟨call, s, node, signal, h.mem hs, hpayload⟩

/-- What is stored that records a signal is the acceptance of this signal. -/
theorem accepted_of_stored {call : Nat} {node : NodeId} {signal : Signal} (hs : ⟨call, .stored s⟩ ∈ j)
    (hid : s.id = id) (hlawful : (charter cents).Lawful i s)
    (hdelivery : s.pendingDelivery = some (node, signal)) (h : signal.verdict = some approved) :
    j.Accepted id approved :=
  ⟨call, s, node, signal, hs, hid, hdelivery, (told_of_lawful hlawful hdelivery).2,
    member_of_verdict h⟩

/-- The phase of what is stored in the place of a lawful version. -/
theorem lawful_of_moves {t : Instance} (h : ((charter cents).rule id).moves t s) (hid : t.id = id)
    (ht : (charter cents).Lawful i t) : (charter cents).Lawful i s ∨ i = none ∧
      ∃ node signal, s.pendingDelivery = some (node, signal) ∧
        (charter cents).Lawful (some signal.verdict) s := by
  obtain ⟨-, -, hmove⟩ := h
  obtain ⟨hopen, i', ht', hs⟩ := hmove hid
  obtain rfl := lawful_unique hopen ht' ht
  obtain hs | ⟨hwaiting, node, signal, hs⟩ := hs
  · exact .inl hs
  · obtain ⟨-, c, -, -, hstands⟩ := ht
    simp only [Assertions.Stands, hwaiting] at hstands
    obtain ⟨w, -, -, -, hw⟩ := hstands
    have hw : Waits i' w c := hw
    exact .inr ⟨hw.none, node, signal, hs⟩

variable {claim : ExpenseClaim} {call : Nat}

/-- A claim that has not been paid begins before any decision. -/
theorem lawful_of_created (hunpaid : claim.paymentScheduled = false) (hs : s.Fresh)
    (hworkflow : s.workflow = workflowId) (hcontext : s.context = claim.toJson.canonical) :
    (charter claim.cents).Lawful none s :=
  Charter.lawful_of_fresh hs hworkflow (congrArg some hcontext.symm)
    ⟨rfl, by simp, fun hpaid => by simp [hunpaid] at hpaid⟩ (.validate claim)

/-- What is known of the instances that are created. -/
def Begins (claim : ExpenseClaim) (id : Uuid) (s : Instance) : Prop :=
  s.id = id → s.workflow = workflowId ∧ s.context = claim.toJson.canonical

theorem Keeps.adds_lawful (hunpaid : claim.paymentScheduled = false) (h : Keeps claim.cents id j)
    (hadds : j.Adds call ((charter claim.cents).rule id).moves j')
    (hmints : j.Mints (fun s => s.Fresh ∧ Begins claim id s) call j') :
    ∀ e ∈ j', ∀ s, e.deed.version? = some s → s.id = id →
      ∃ i, (charter claim.cents).Lawful i s ∧ ∀ b, i = some (some b) → j'.Accepted id b := by
  have hgrows := hadds.grows
  have hold {e : Entry} (he : e ∈ j) {s : Instance} (hs : e.deed.version? = some s) (hid : s.id = id) :
      ∃ i, (charter claim.cents).Lawful i s ∧ ∀ b, i = some (some b) → j'.Accepted id b := by
    obtain ⟨i, hi, haccepted⟩ := h.lawful e he s hs hid
    exact ⟨i, hi, fun b hb => accepted_mono hgrows (haccepted b hb)⟩
  intro e he v hv hid
  cases hadds with
  | reads l hl =>
    obtain hread | he := List.mem_append.1 he
    · obtain ⟨s, hs, rfl⟩ := List.mem_map.1 hread
      cases hv
      obtain ⟨e, he, hversion⟩ := Journal.mem_of_current (hl v hs)
      exact hold he hversion hid
    · exact hold he hv hid
  | created =>
    obtain rfl | hbefore := List.mem_cons.1 he
    · cases hv
      obtain hbefore | ⟨hfresh, hbegins⟩ := hmints v (List.mem_cons_self ..)
      · exact hold hbefore rfl hid
      · obtain ⟨hworkflow, hcontext⟩ := hbegins hid
        exact ⟨none, lawful_of_created hunpaid hfresh hworkflow hcontext, by simp⟩
    · exact hold hbefore hv hid
  | @stored t s ht hmove =>
    obtain rfl | hbefore := List.mem_cons.1 he
    · cases hv
      have htid : t.id = id := hmove.1.symm.trans hid
      obtain ⟨d, hd, hversion⟩ := ht
      obtain ⟨i, hi, haccepted⟩ := hold hd hversion htid
      obtain hs | ⟨-, node, signal, hdelivery, hs⟩ := lawful_of_moves hmove htid hi
      · exact ⟨i, hs.revise _, haccepted⟩
      · exact ⟨_, hs.revise _, fun b hb => accepted_of_stored (List.mem_cons_self ..) hid
          (hs.revise _) hdelivery (Option.some.inj hb)⟩
    · exact hold hbefore hv hid
  | deleted =>
    obtain rfl | hbefore := List.mem_cons.1 he
    · simp [Deed.version?] at hv
    · exact hold hbefore hv hid

theorem Keeps.adds_decided (h : Keeps claim.cents id j)
    (hadds : j.Adds call ((charter claim.cents).rule id).moves j') (hlegal : j'.Legal)
    (hunique : j'.Unique) {b : Bool} (haccepted : j'.Accepted id b) (hs : j'.current id = some s) :
    (charter claim.cents).Lawful (some (some b)) s := by
  have hbefore := h.decided (hadds.grows.unique hunique) b
  obtain ⟨call', v, node, signal, hv, hvid, hdelivery, hname, hpayload⟩ := haccepted
  cases hadds with
  | reads l =>
    rw [Journal.current_reads] at hs
    obtain hread | hv := List.mem_append.1 hv
    · obtain ⟨s, -, heq⟩ := List.mem_map.1 hread
      cases heq
    · exact hbefore ⟨call', v, node, signal, hv, hvid, hdelivery, hname, hpayload⟩ s hs
  | @created u =>
    have hv : ⟨call', .stored v⟩ ∈ j := by simpa using hv
    by_cases hid : u.id = id
    · have hmem := hlegal.2.mem_created_of_version hv rfl
      rw [hvid, ← hid] at hmem
      exact absurd hmem hunique.not_mem
    · exact hbefore ⟨call', v, node, signal, hv, hvid, hdelivery, hname, hpayload⟩ s
        ((if_neg hid).symm.trans hs)
  | @stored t u ht hmove =>
    by_cases hid : u.id = id
    · obtain rfl : { u with revision := u.revision + 1 } = s :=
        Option.some.inj ((if_pos hid).symm.trans hs)
      have htid : t.id = id := hmove.1.symm.trans hid
      refine Charter.Lawful.revise ?_ _
      obtain heq | hv := List.mem_cons.1 hv
      · cases heq
        obtain ⟨d, hd, hversion⟩ := ht
        obtain ⟨i, hi, -⟩ := h.lawful _ hd t hversion htid
        have hverdict : signal.verdict = some b := by
          rw [Signal.verdict, hpayload]
          rfl
        have hphase {k : Phase} (hk : (charter claim.cents).Lawful k u) :
            (charter claim.cents).Lawful (some (some b)) u := by
          obtain ⟨rfl, -⟩ := told_of_lawful hk hdelivery
          exact hverdict ▸ hk
        obtain hu | ⟨-, _, _, -, hu⟩ := lawful_of_moves hmove htid hi
        · exact hphase hu
        · exact hphase hu
      · have hcurrent := hlegal.current_of_stored hunique.tail ht hmove.1 hmove.2.1
        rw [htid] at hcurrent
        have ht := hbefore ⟨call', v, node, signal, hv, hvid, hdelivery, hname, hpayload⟩ t hcurrent
        obtain hu | ⟨hnone, -⟩ := lawful_of_moves hmove htid ht
        · exact hu
        · cases hnone
    · refine hbefore ⟨call', v, node, signal, ?_, hvid, hdelivery, hname, hpayload⟩ s
        ((if_neg hid).symm.trans hs)
      obtain heq | hv := List.mem_cons.1 hv
      · cases heq
        exact absurd hvid hid
      · exact hv
  | deleted i =>
    have hv : ⟨call', .stored v⟩ ∈ j := by simpa using hv
    by_cases hid : i = id
    · cases (if_pos hid).symm.trans hs
    · exact hbefore ⟨call', v, node, signal, hv, hvid, hdelivery, hname, hpayload⟩ s
        ((if_neg hid).symm.trans hs)

/-- Whatever is done in a system of such coordinators, the journal keeps what it has to of a claim that
is not paid when it begins. -/
theorem keeps_of_reachable {σ : System H R} (hσ : System.ReachableBy view Demand.Bundled σ)
    (hunpaid : claim.paymentScheduled = false) (hclaim : σ.journal.For id claim) :
    Keeps claim.cents id σ.journal := by
  have hnil : Keeps claim.cents id [] := by
    refine ⟨by simp, ?_⟩
    rintro - b ⟨_, _, _, _, hmem, -⟩
    cases hmem
  refine (hσ.ruled (r := (charter claim.cents).rule id) (F := Begins claim id)
    (Charter.lets (charter_accepts _) id) (fun t ht c hc => drives_of_bundled (ht c hc))
    (fun s hs hbegins hid => ?_) hnil (fun h _ hadds hmints hlegal => ?_) hclaim).2
  · obtain ⟨hworkflow, hcontext⟩ := hbegins hid
    exact ⟨none, lawful_of_created hunpaid hs hworkflow hcontext⟩
  · exact ⟨h.adds_lawful hunpaid hadds hmints, fun hunique b hb s hs =>
      h.adds_decided hadds (hlegal hunique) hunique hb hs⟩

end ExpenseClaim

namespace System

variable {σ : System H R} {id : Uuid} {claim : ExpenseClaim} {s : Instance}

/-- Of an expense claim that is not paid when it begins, every stored version keeps the amount. It
tells of a payment only if the amount is within the limit of one payment, and small or approved by a
signal that the instance has accepted. Where it has completed, the claim is approved, and budget,
payment and receipt are done; after a signal that refuses the claim it never has. -/
theorem ReachableBy.payments (hσ : ReachableBy view Demand.Bundled σ)
    (hunpaid : claim.paymentScheduled = false) (hclaim : σ.journal.For id claim)
    (hs : σ.stored view id = some s) :
    (∃ c : ExpenseClaim, s.context = c.toJson.canonical ∧ c.cents = claim.cents ∧
      (c.paymentScheduled = true → claim.cents ≤ paymentLimit ∧
        (claim.cents ≤ autoApproveLimit ∨ σ.journal.Accepted id true)) ∧
      (s.status = .completed → c.approved = some true ∧ c.budgetReserved = true ∧
        c.paymentScheduled = true ∧ c.receiptArchived = true)) ∧
    (σ.journal.Unique → σ.journal.Accepted id false → s.status ≠ .completed) := by
  have hkeeps := ExpenseClaim.keeps_of_reachable hσ hunpaid hclaim
  rw [hσ.reachable.sound.stored_eq] at hs
  obtain ⟨e, he, hversion⟩ := Journal.mem_of_current hs
  have hdone {i : Phase} {c : ExpenseClaim} (hstands : (assertions claim.cents i).Stands 0 s c)
      (hcompleted : s.status = .completed) : Ahead i [] c := by
    simp only [Assertions.Stands, hcompleted] at hstands
    exact hstands
  refine ⟨?_, fun hunique hrefused hcompleted => ?_⟩
  · obtain ⟨i, ⟨-, c, hcontext, hlive, hstands⟩, haccepted⟩ :=
      hkeeps.lawful e he s hversion (Journal.current_id hs)
    have hlive : Live claim.cents i c := hlive
    refine ⟨c, (Option.some.inj hcontext).symm, hlive.amount, fun hpaid => ?_, fun hcompleted => ?_⟩
    · obtain ⟨hlimit, ⟨hsmall, -⟩ | happroved⟩ := hlive.paid hpaid
      · exact ⟨hlimit, .inl hsmall⟩
      · exact ⟨hlimit, .inr (haccepted true happroved)⟩
    · cases hdone hstands hcompleted with
      | done h hreserved hpaid harchived => exact ⟨h.approved, hreserved, hpaid, harchived⟩
  · obtain ⟨-, c, -, -, hstands⟩ := hkeeps.decided hunique false hrefused s hs
    cases hdone hstands hcompleted with
    | done h =>
      have happroved := h.decided.2.2.symm.trans h.approved
      cases happroved

end System

/-! ### A claim that a manager approves -/

namespace Json

/-- The same `null`, truth value, integer or text. -/
def sameLeaf : Json → Json → Bool
  | .null, .null => true
  | .bool a, .bool b => a == b
  | .int m, .int n => m == n
  | .str s, .str t => s == t
  | _, _ => false

def sameMembers : List (String × Json) → List (String × Json) → Bool
  | [], [] => true
  | (m, a) :: as, (n, b) :: bs => m == n && sameLeaf a b && sameMembers as bs
  | _, _ => false

/-- Objects of such members are compared. -/
def sameRecord : Json → Json → Bool
  | .obj as, .obj bs => sameMembers as bs
  | _, _ => false

theorem eq_of_sameLeaf {a b : Json} (h : sameLeaf a b = true) : a = b := by
  cases a <;> cases b <;> simp_all [sameLeaf]

theorem eq_of_sameMembers {as bs : List (String × Json)} (h : sameMembers as bs = true) : as = bs := by
  induction as generalizing bs with
  | nil =>
    cases bs with
    | nil => rfl
    | cons => simp [sameMembers] at h
  | cons a as ih =>
    cases bs with
    | nil => simp [sameMembers] at h
    | cons b bs =>
      simp only [sameMembers, Bool.and_eq_true, beq_iff_eq] at h
      rw [ih h.2, Prod.ext h.1.1 (eq_of_sameLeaf h.1.2)]

theorem eq_of_sameRecord {a b : Json} (h : sameRecord a b = true) : a = b := by
  unfold sameRecord at h
  split at h
  · exact congrArg obj (eq_of_sameMembers h)
  · simp at h

end Json

/-- A claim that needs a manager. -/
def trip : ExpenseClaim := { employee := "ada", cents := 42000 }

def treasury : Coordinator ExpenseClaim Unit Memory where
  number := 0
  kind := CommandLine.claimKind
  repository := Memory.repository
  notifier := .silent
  definitions := [definition]

theorem treasury_bundled : treasury.Bundled := by
  refine .claims _ rfl fun d hd _ => ⟨{}, ?_⟩
  obtain rfl := List.mem_singleton.1 hd
  exact compile_program {}

/-- No instance has begun with anything but the trip. -/
def Entry.beginsTrip (e : Entry) : Bool :=
  match e.deed with
  | .created s => s.workflow == workflowId && s.context.sameRecord trip.toJson.canonical
  | _ => true

/-- The claim has waited for a manager, who has approved it, and it is paid. -/
theorem System.ReachableBy.payments_trip : ∃ (σ : System Unit Memory) (id : Uuid) (s : Instance),
    ReachableBy Memory.find? Demand.Bundled σ ∧ trip.paymentScheduled = false ∧
      σ.journal.For id trip ∧ σ.stored Memory.find? id = some s ∧ s.status = .completed ∧
      (∃ c : ExpenseClaim, s.context = c.toJson.canonical ∧ c.cents = trip.cents ∧
        (c.paymentScheduled = true → trip.cents ≤ paymentLimit ∧
          (trip.cents ≤ autoApproveLimit ∨ σ.journal.Accepted id true)) ∧
        (s.status = .completed → c.approved = some true ∧ c.budgetReserved = true ∧
          c.paymentScheduled = true ∧ c.receiptArchived = true)) ∧
      (σ.journal.Unique → σ.journal.Accepted id false → s.status ≠ .completed) := by
  let σ₀ : System Unit Memory :=
    ⟨{ store := { store := default }, memory := (), wall := ⟨0, 0⟩ }, [], 0⟩
  let id : Uuid := .timeOrdered 0 0
  have hrun : ((σ₀.serve? (.start treasury 0 workflowId trip)).bind fun σ =>
      (σ.serve? (.signal treasury 1 id approvalSignal (.obj [("approved", .bool true)]))).bind
        fun τ => (τ.stored Memory.find? id).bind fun s =>
          if τ.journal.all Entry.beginsTrip ∧ s.status = .completed then some () else none) = some () := by
    decide +kernel
  simp only [Option.bind_eq_some_iff, Option.ite_none_right_eq_some, and_true] at hrun
  obtain ⟨σ, hσ, τ, hτ, s, hs, hbegins, hcompleted⟩ := hrun
  have hbundled : ∀ c ∈ [treasury], c.Bundled := fun c hc => by
    obtain rfl := List.mem_singleton.1 hc
    exact treasury_bundled
  have hinitial : ReachableBy Memory.find? Demand.Bundled σ₀ := ⟨σ₀, ⟨fun _ => rfl, rfl, rfl⟩, .refl⟩
  have hstarted : ReachableBy Memory.find? Demand.Bundled σ := by
    refine hinitial.serve ?_ ?_ hσ
    · exact Memory.repository_lawful
    · exact hbundled
  have hreachable : ReachableBy Memory.find? Demand.Bundled τ := by
    refine hstarted.serve ?_ ?_ hτ
    · exact Memory.repository_lawful
    · exact hbundled
  have hclaim : τ.journal.For id trip := by
    intro call s hs _
    have hbegin := List.all_eq_true.1 hbegins _ hs
    simp only [Entry.beginsTrip, Bool.and_eq_true, beq_iff_eq] at hbegin
    exact ⟨hbegin.1, Json.eq_of_sameRecord hbegin.2⟩
  exact ⟨τ, id, s, hreachable, rfl, hclaim, hs, hcompleted, hreachable.payments rfl hclaim hs⟩

end DurableWorkflow

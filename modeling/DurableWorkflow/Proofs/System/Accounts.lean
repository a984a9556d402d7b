import DurableWorkflow.Proofs.Coordinator.Accounts
import DurableWorkflow.Proofs.System.Change

/-!
# The accounts of a system

In a reachable system every call that is under way keeps its account, whatever the others have done
in between. So all that is ever stored comes from versions that were stored before by moves, and
what a call stores on a run goes with the books of this run.
-/

namespace DurableWorkflow

variable {H R : Type} {view : R → Uuid → Option Instance}

namespace Demand

/-- The signal that is offered to an instance. -/
def offer : Demand H R → Option (String × Json)
  | signal _ _ _ name payload | dispatch _ _ _ name payload => some (name, payload)
  | _ => none

/-- The coordinators that the call may go through. -/
def coordinators : (t : Demand H R) → List (Coordinator t.Context H R)
  | start c .. | signal c .. | resume c .. | cancel c .. => [c]
  | dispatch d .. => d.targets
  | sweep .. | delete .. => []

end Demand

namespace Thread

variable {th : Thread H R} {w v : World (Journaled R) H}

def caller (th : Thread H R) : Caller th.demand.Context H R :=
  ⟨th.number, th.demand.offer, th.demand.coordinators⟩

/-- The call keeps its account from this world on. -/
def Accounts (view : R → Uuid → Option Instance) (th : Thread H R) (w : World (Journaled R) H) :
    Prop :=
  Course.Accounts view th.caller (fun _ _ => True) th.course w

/-- The call is on a walk, of which this is left, with this board. -/
def Walks (th : Thread H R)
    (path : Walk (Board th.demand.Context H Instance × World (Journaled R) H) Report)
    (board : Board th.demand.Context H Instance) : Prop :=
  ∃ cancelled limit rest, th.course = .walk cancelled limit board path rest

/-- Every call that is made keeps its account. -/
theorem accounts_begin {demand : Demand H R} {number : Nat} (h : demand.On view) :
    (begin number demand).Accounts view w := by
  cases demand with
  | start c operation definition context =>
    exact (Coordinator.start_accounts h (List.mem_singleton.2 rfl) operation definition
      context).course
  | signal c operation id name payload =>
    exact (Coordinator.signal_accounts h (List.mem_singleton.2 rfl) operation rfl).course
  | resume c operation id =>
    exact (Coordinator.resume_accounts h (List.mem_singleton.2 rfl) operation).course
  | cancel c operation id => exact (Coordinator.cancel_accounts h operation).course
  | dispatch d operation id name payload =>
    exact (Dispatcher.dispatch_accounts h.1 h.2 (fun _ hc => hc) operation rfl).course
  | sweep sweeper now => exact Sweeper.sweep_accounts h now
  | delete repository id => exact (Repository.delete_accounts h).course

/-- What the others note does not matter. -/
theorem Accounts.others (h : th.Accounts view w)
    (hv : w.store.journal.Grows (· ≠ th.number) v.store.journal) : th.Accounts view v :=
  Course.Heeds.stable (fun _ _ _ _ _ => trivial) h hv

/-- What is left of a walk is left of a run of an instance that the call has stored. -/
theorem Accounts.runs
    {path : Walk (Board th.demand.Context H Instance × World (Journaled R) H) Report}
    {board : Board th.demand.Context H Instance} (h : th.Accounts view w)
    (hwalks : th.Walks path board) :
    ∃ c ∈ th.demand.coordinators, c.Runs th.number path board w.store.journal := by
  obtain ⟨cancelled, limit, rest, heq⟩ := hwalks
  unfold Accounts Course.Accounts at h
  rw [heq] at h
  obtain ⟨K, hK, hpath, -⟩ := h
  exact hK.mark hpath

end Thread

namespace System

variable {σ σ' : System H R} {id : Uuid} {s t : Instance}

/-- What a step of a system adds to the journal. -/
inductive Adds (σ : System H R) (j : Journal) : Prop
  | same (h : j = σ.journal)
  /-- A call acts outside walks. -/
  | own (th : Thread H R) (hth : th ∈ σ.threads)
      (h : σ.journal.Adds th.number (Instance.Move th.caller.warrant) j)
  /-- A call acts on a walk. -/
  | pace (th : Thread H R) (hth : th ∈ σ.threads)
      {path : Walk (Board th.demand.Context H Instance × World (Journaled R) H) Report}
      {board : Board th.demand.Context H Instance} (hwalks : th.Walks path board)
      (h : σ.journal.Adds th.number (Instance.Passed th.caller.warrant board.ledger.trace) j)

/-- The invariant: every call keeps its account, and every version that somebody has known is
well-formed. -/
structure Accounted (view : R → Uuid → Option Instance) (σ : System H R) : Prop
    extends Sound view σ where
  accounts : ∀ th ∈ σ.threads, th.Accounts view σ.world
  wellFormed : σ.journal.WellFormed

theorem Initial.accounted (h : Initial view σ) : Accounted view σ where
  toSound := h.sound
  accounts := by simp [h.threads]
  wellFormed := by
    rw [h.journal]
    exact fun e he => absurd he List.not_mem_nil

theorem Accounted.adds (h : Accounted view σ) (hstep : Step view σ σ') : σ.Adds σ'.journal := by
  cases hstep with
  | call | drop => exact .same rfl
  | move l r th calls w w' course hmove =>
    have hth : th ∈ l ++ th :: r := by simp
    have hseen := (Course.Heeds.step hmove (h.accounts th hth) h.told).1
    generalize hcourse : th.course = c at hseen
    cases hseen with
    | own hown => exact .own th hth hown
    | pace hpace => exact .pace th hth ⟨_, _, _, hcourse⟩ hpace
  | outside _ w hsame =>
    refine .same ?_
    show w.store.journal = σ.world.store.journal
    rw [hsame]

theorem Adds.wellFormed {j : Journal} (h : σ.Adds j) (hσ : σ.journal.WellFormed) : j.WellFormed := by
  cases h with
  | same h => exact h ▸ hσ
  | own th hth h => exact h.wellFormed (fun _ _ hmove => hmove.wellFormed) hσ
  | pace th hth hwalks h => exact h.wellFormed (fun _ _ hpassed => hpassed.wellFormed) hσ

theorem Accounted.step (h : Accounted view σ) (hstep : Step view σ σ') : Accounted view σ' := by
  refine ⟨h.toSound.step hstep, ?_, (h.adds hstep).wellFormed h.wellFormed⟩
  cases hstep with
  | call _ demand hon =>
    intro th hth
    rcases List.mem_cons.1 hth with rfl | hth
    · exact Thread.accounts_begin hon
    · exact h.accounts th hth
  | move l r th calls w w' course hmove =>
    have hth : th ∈ l ++ th :: r := by simp
    obtain ⟨-, hnotes, -⟩ := (h.behaves th hth).step hmove h.told
    obtain ⟨l', hjournal, hcall⟩ := hnotes.grows
    intro t ht
    rcases mem_middle.1 ht with rfl | ht
    · exact (Course.Heeds.step hmove (h.accounts th hth) h.told).2
    · have hne : t.number ≠ th.number := ne_of_distinct h.distinct ht
      refine (h.accounts t (mem_middle.2 (.inr ht))).others ⟨l', hjournal, fun e he heq => ?_⟩
      exact hne (heq.symm.trans (hcall e he))
  | drop l r th calls w =>
    exact fun t ht => h.accounts t (mem_middle.2 (.inr ht))
  | outside _ w hsame =>
    refine fun th hth => (h.accounts th hth).others ?_
    rw [hsame]
    exact .refl

theorem Accounted.steps (h : Accounted view σ) (hsteps : Steps view σ σ') : Accounted view σ' := by
  induction hsteps with
  | refl => exact h
  | tail _ hstep ih => exact ih.step hstep

theorem Reachable.accounted (h : Reachable view σ) : Accounted view σ := by
  obtain ⟨σ₀, hinitial, hsteps⟩ := h
  exact hinitial.accounted.steps hsteps

/-- A call is made, and it goes on alone to its end. -/
def serve? (σ : System H R) (demand : Demand H R) : Option (System H R) :=
  match (demand.course σ.calls).inOrder (σ.world, []) with
  | some (.done a, w, _) =>
    some ⟨w, { Thread.begin σ.calls demand with course := .done a } :: σ.threads, σ.calls + 1⟩
  | _ => none

theorem Steps.serve {demand : Demand H R} (hon : demand.On view) (h : σ.serve? demand = some σ') :
    Steps view σ σ' := by
  unfold serve? at h
  split at h
  · next a w calls heq =>
    cases h
    let th : Thread H R := .begin σ.calls demand
    have hcourse : Course.Steps (th.course, σ.world) (.done a, w) := Course.steps_of_inOrder _ heq
    have hmoves : Steps view ⟨σ.world, [] ++ th :: σ.threads, σ.calls + 1⟩ _ := Steps.move hcourse
    exact .head (.call σ demand hon) hmoves
  · simp at h

end System

/-! ### A system in which a signal is delivered twice -/

/-- A step that waits for a signal, and counts the signals that it is given. -/
def gating : Definition Nat Nat where
  id := "gating"
  name := "gating"
  version := ⟨1, 0, 0, "", ""⟩
  limit := none
  root := 0
  graph := ⟨#[{ kind := .step {
    name := "gate"
    execute := .done (.suspendFor "go" (Nanos.ofSeconds 1))
    onSignal := fun _ => .act (fun (n, h) => (n + h + 1, h + 1)) fun _ => .done .success
    maySuspend := true } }]⟩

/-- What the first delivery makes of the context cannot be stored. -/
def gatekeeper : Coordinator Nat Nat Memory where
  number := 0
  kind := ⟨"Nat", fun n => if n = 1 then none else some (.int n),
    fun j => match j with | .int n => some n.toNat | _ => none⟩
  repository := Memory.repository
  notifier := .silent
  definitions := [gating]

/-- An instance waits for a signal and its deadline; the signal is accepted, but the run fails to
store its end; and resuming the instance brings it to its end. -/
theorem System.gated : ∃ (σ τ υ : System Nat Memory) (id : Uuid) (s t u : Instance)
    (signal : Signal),
    Reachable Memory.find? σ ∧ Steps Memory.find? σ τ ∧ Steps Memory.find? τ υ ∧
      υ.journal.Unique ∧ σ.stored Memory.find? id = some s ∧ s.status = .waiting ∧
      s.awaited = some "go" ∧ s.deadline = some ⟨1, 0⟩ ∧ τ.stored Memory.find? id = some t ∧
      t.pendingDelivery = some (0, signal) ∧ υ.stored Memory.find? id = some u ∧
      u.status = .completed := by
  let σ₀ : System Nat Memory :=
    ⟨{ store := { store := default }, memory := 0, wall := ⟨0, 0⟩ }, [], 0⟩
  let id : Uuid := .timeOrdered 0 0
  have hrun : ((σ₀.serve? (.start gatekeeper 0 "gating" (0 : Nat))).bind fun σ =>
      (σ.serve? (.signal gatekeeper 1 id "go" .null)).bind fun τ =>
      (τ.serve? (.resume gatekeeper 2 id)).bind fun υ =>
      (σ.stored Memory.find? id).bind fun s => (τ.stored Memory.find? id).bind fun t =>
      (υ.stored Memory.find? id).bind fun u =>
        if υ.journal.created = [id] ∧ s.status = .waiting ∧ s.awaited = some "go" ∧
            s.deadline = some ⟨1, 0⟩ ∧ t.pendingDelivery.map (·.1) = some 0 ∧ u.status = .completed
        then some () else none) = some () := by
    decide +kernel
  simp only [Option.bind_eq_some_iff, Option.ite_none_right_eq_some, and_true] at hrun
  obtain ⟨σ, hσ, τ, hτ, υ, hυ, s, hs, t, ht, u, hu, hcreated, hstatus, hawaited, hdeadline,
    hdelivery, hcompleted⟩ := hrun
  obtain ⟨⟨node, signal⟩, hdelivery, rfl⟩ := Option.map_eq_some_iff.1 hdelivery
  have hinitial : Initial Memory.find? σ₀ := ⟨fun _ => rfl, rfl, rfl⟩
  refine ⟨σ, τ, υ, id, s, t, u, signal, ⟨σ₀, hinitial, .serve ?_ hσ⟩, .serve ?_ hτ, .serve ?_ hυ, ?_,
    hs, hstatus, hawaited, hdeadline, ht, hdelivery, hu, hcompleted⟩
  · exact Memory.repository_lawful
  · exact Memory.repository_lawful
  · exact Memory.repository_lawful
  · rw [Journal.Unique, hcreated]
    simp

/-!
## Stored instances are well-formed

However calls take turns, whatever requests fail and wherever calls are dropped, every stored
instance is well-formed: each version comes from one that was stored before by a move, and moves
keep it. So an instance with a delivery on its way waits for no signal and for no deadline. Waiting
for a signal and for a deadline that has come go together: a wait that is over goes on until
somebody sweeps.
-/

namespace System

variable {σ : System H R} {id : Uuid} {s : Instance}

theorem Reachable.stored_wellFormed (h : Reachable view σ) (hs : σ.stored view id = some s) :
    s.WellFormed ∧ (s.pendingDelivery.isSome → ∀ signal now,
      s.isWaitingFor signal = false ∧ s.isWaitExpired now = false) := by
  have haccounted := h.accounted
  rw [haccounted.stored_eq] at hs
  refine ⟨haccounted.wellFormed.current hs, fun hdelivery signal now => ?_⟩
  have hrunning := Instance.running_of_pendingDelivery hdelivery
  simp [Instance.isWaitingFor, Instance.isWaitExpired, hrunning]

/-- An instance with a delivery on its way. -/
theorem Reachable.stored_wellFormed_gated : ∃ (σ : System Nat Memory) (id : Uuid) (s : Instance),
    Reachable Memory.find? σ ∧ σ.stored Memory.find? id = some s ∧ s.pendingDelivery.isSome ∧
      s.WellFormed ∧ ∀ signal now, s.isWaitingFor signal = false ∧ s.isWaitExpired now = false := by
  obtain ⟨σ, τ, υ, id, s, t, u, signal, ⟨σ₀, hinitial, hσ⟩, hτ, -, -, -, -, -, -, ht, hdelivery, -⟩ :=
    gated
  have hreachable : Reachable Memory.find? τ := ⟨σ₀, hinitial, hσ.trans hτ⟩
  obtain ⟨hwellFormed, hexclusive⟩ := hreachable.stored_wellFormed ht
  have hsome : t.pendingDelivery.isSome := by simp [hdelivery]
  exact ⟨τ, id, t, hreachable, ht, hsome, hwellFormed, hexclusive hsome⟩

/-- A wait whose deadline has come is still a wait for its signal. -/
theorem waits_past_deadline : ∃ (σ : System Nat Memory) (id : Uuid) (s : Instance),
    Reachable Memory.find? σ ∧ σ.stored Memory.find? id = some s ∧
      s.isWaitingFor "go" = true ∧ s.isWaitExpired ⟨2, 0⟩ = true := by
  obtain ⟨σ, τ, υ, id, s, t, u, signal, hσ, -, -, -, hs, hstatus, hawaited, hdeadline, -⟩ := gated
  refine ⟨σ, id, s, hσ, hs, ?_, ?_⟩
  · simp [Instance.isWaitingFor, hstatus, hawaited]
  · simp [Instance.isWaitExpired, hstatus, hdeadline, Timestamp.le]

end System

end DurableWorkflow

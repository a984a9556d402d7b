import DurableWorkflow.Proofs.Coordinator.Rule
import DurableWorkflow.Proofs.System.Accounts

/-!
# Systems under a rule

If all who are called drive by a rule, and every instance that is created is valid by it, then so is
every version that anybody ever knows, and what is stored in the place of a version is what the rule
makes of it.
-/

namespace DurableWorkflow

variable {H R : Type} {view : R → Uuid → Option Instance} {r : Rule}

/-- All coordinators that the call may go through drive by the rule. -/
def Demand.By (r : Rule) (view : R → Uuid → Option Instance) (t : Demand H R) : Prop :=
  ∀ c ∈ t.coordinators, r.Drives view c

namespace Thread

variable {th : Thread H R} {w v : World (Journaled R) H}

def Heeds (r : Rule) (view : R → Uuid → Option Instance) (th : Thread H R)
    (w : World (Journaled R) H) : Prop :=
  Course.Heeds (r.watch th.demand.Context view th.number) (fun _ _ => True) th.course w

theorem heeds_begin {demand : Demand H R} {number : Nat} (hr : r.Lets) (h : demand.On view)
    (hby : demand.By r view) : (begin number demand).Heeds r view w := by
  cases demand with
  | start c operation definition context =>
    exact (Rule.start_heeds hr h (hby c (List.mem_singleton.2 rfl)) operation definition
      context).mono fun _ _ _ => trivial
  | signal c operation id name payload =>
    exact (Rule.signal_heeds hr h (hby c (List.mem_singleton.2 rfl)) operation id name
      payload).mono fun _ _ _ => trivial
  | resume c operation id =>
    exact (Rule.resume_heeds hr h (hby c (List.mem_singleton.2 rfl)) operation id).mono
      fun _ _ _ => trivial
  | cancel c operation id => exact (Rule.cancel_heeds hr h operation id).mono fun _ _ _ => trivial
  | dispatch d operation id name payload =>
    exact (Rule.dispatch_heeds hr h.1 h.2 hby operation id name payload).mono fun _ _ _ => trivial
  | sweep sweeper now => exact Rule.sweep_heeds hr h now
  | delete repository id => exact (Rule.delete_heeds h id).mono fun _ _ _ => trivial

/-- What the others note does not matter. -/
theorem Heeds.others (h : th.Heeds r view w)
    (hv : w.store.journal.Grows (· ≠ th.number) v.store.journal) : th.Heeds r view v :=
  Course.Heeds.stable (fun _ _ _ _ _ => trivial) h hv

end Thread

namespace System

variable {σ σ' : System H R} {D : Demand H R → Prop}

/-- A step of a system in which only such calls are under way. -/
def StepBy (view : R → Uuid → Option Instance) (D : Demand H R → Prop) (σ σ' : System H R) : Prop :=
  Step view σ σ' ∧ ∀ th ∈ σ'.threads, D th.demand

/-- A state to which only such calls have led. -/
def ReachableBy (view : R → Uuid → Option Instance) (D : Demand H R → Prop) (σ : System H R) :
    Prop :=
  ∃ σ₀, Initial view σ₀ ∧ Relation.ReflTransGen (StepBy view D) σ₀ σ

theorem ReachableBy.reachable (h : ReachableBy view D σ) : Reachable view σ := by
  obtain ⟨σ₀, hinitial, hsteps⟩ := h
  exact ⟨σ₀, hinitial, Relation.ReflTransGen.mono (fun _ _ hstep => hstep.1) _ _ hsteps⟩

theorem ReachableBy.only (h : ReachableBy view D σ) : ∀ th ∈ σ.threads, D th.demand := by
  obtain ⟨σ₀, hinitial, hsteps⟩ := h
  cases hsteps with
  | refl => simp [hinitial.threads]
  | tail _ hstep => exact hstep.2

theorem ReachableBy.step (h : ReachableBy view D σ) (hstep : StepBy view D σ σ') :
    ReachableBy view D σ' := by
  obtain ⟨σ₀, hinitial, hsteps⟩ := h
  exact ⟨σ₀, hinitial, hsteps.tail hstep⟩

/-- A call of this kind is made, and it goes on alone to its end. -/
theorem ReachableBy.serve {demand : Demand H R} (h : ReachableBy view D σ) (hon : demand.On view)
    (hD : D demand) (hserve : σ.serve? demand = some σ') : ReachableBy view D σ' := by
  have hcalled : ReachableBy view D
      { σ with threads := .begin σ.calls demand :: σ.threads, calls := σ.calls + 1 } :=
    h.step ⟨.call σ demand hon, List.forall_mem_cons.2 ⟨hD, h.only⟩⟩
  have hmoved {y : Errand demand.Context H (Journaled R) demand.Answer × World (Journaled R) H}
      (hy : Course.Steps (demand.course σ.calls, σ.world) y) :
      ReachableBy view D ⟨y.2, ⟨demand, σ.calls, y.1⟩ :: σ.threads, σ.calls + 1⟩ := by
    induction hy with
    | refl => exact hcalled
    | tail _ hmove ih =>
      exact ih.step ⟨.move [] σ.threads _ _ _ _ _ hmove, List.forall_mem_cons.2 ⟨hD, h.only⟩⟩
  unfold serve? at hserve
  split at hserve
  · next heq =>
    cases hserve
    exact hmoved (Course.steps_of_inOrder _ heq)
  · simp at hserve

/-- The invariant: every call heeds the rule, and every version is a valid one. -/
structure Ruled (r : Rule) (view : R → Uuid → Option Instance) (σ : System H R) : Prop
    extends Sound view σ where
  heeds : ∀ th ∈ σ.threads, th.Heeds r view σ.world
  valid : σ.journal.All r.valid

theorem Initial.ruled (h : Initial view σ) : Ruled r view σ where
  toSound := h.sound
  heeds := by simp [h.threads]
  valid := by
    rw [h.journal]
    exact fun e he => absurd he List.not_mem_nil

/-- What a step adds is by the rule. -/
theorem Ruled.adds (h : Ruled r view σ) (hstep : Step view σ σ') :
    ∃ call, σ.journal.Adds call r.moves σ'.journal ∧
      σ.journal.Mints Instance.Fresh call σ'.journal := by
  cases hstep with
  | call | drop => exact ⟨0, .refl, .refl⟩
  | move l rest th calls w w' course hmove =>
    have hth : th ∈ l ++ th :: rest := by simp
    have hseen := (Course.Heeds.step hmove (h.heeds th hth) ⟨h.told, h.valid⟩).1
    generalize th.course = c at hseen
    cases hseen with
    | own hown => exact ⟨th.number, hown⟩
    | pace hpace => exact ⟨th.number, hpace⟩
  | outside _ w hsame =>
    refine ⟨0, ?_⟩
    show σ.world.store.journal.Adds 0 r.moves w.store.journal ∧
      σ.world.store.journal.Mints Instance.Fresh 0 w.store.journal
    rw [hsame]
    exact ⟨.refl, .refl⟩

theorem Ruled.step (hr : r.Lets) (h : Ruled r view σ) (hstep : Step view σ σ')
    (hby : ∀ th ∈ σ'.threads, th.demand.By r view)
    (hfresh : ∀ call s, ⟨call, .created s⟩ ∈ σ'.journal → s.Fresh → r.valid s) :
    Ruled r view σ' := by
  refine ⟨h.toSound.step hstep, ?_, ?_⟩
  · cases hstep with
    | call _ demand hon =>
      intro th hth
      rcases List.mem_cons.1 hth with rfl | hold
      · exact Thread.heeds_begin hr hon (hby _ hth)
      · exact h.heeds th hold
    | move l rest th calls w w' course hmove =>
      have hth : th ∈ l ++ th :: rest := by simp
      obtain ⟨-, hnotes, -⟩ := (h.behaves th hth).step hmove h.told
      obtain ⟨l', hjournal, hcall⟩ := hnotes.grows
      intro t ht
      rcases mem_middle.1 ht with rfl | ht
      · exact (Course.Heeds.step hmove (h.heeds th hth) ⟨h.told, h.valid⟩).2
      · have hne : t.number ≠ th.number := ne_of_distinct h.distinct ht
        refine (h.heeds t (mem_middle.2 (.inr ht))).others ⟨l', hjournal, fun e he heq => ?_⟩
        exact hne (heq.symm.trans (hcall e he))
    | drop l rest th calls w =>
      exact fun t ht => h.heeds t (mem_middle.2 (.inr ht))
    | outside _ w hsame =>
      refine fun th hth => (h.heeds th hth).others ?_
      rw [hsame]
      exact .refl
  · obtain ⟨call, hadds, hmints⟩ := h.adds hstep
    refine hadds.all (fun _ _ hmove => hr.valid hmove) (fun s hs => ?_) h.valid
    exact (hmints s hs).imp id fun hnew => hfresh call s hs hnew

/-- What the rule keeps holds of the journal, where `F` is what is known of the instances that are
created. -/
theorem ReachableBy.ruled {F : Instance → Prop} {K : Journal → Prop} (hr : r.Lets)
    (hby : ∀ t, D t → t.By r view) (hvalid : ∀ s, s.Fresh → F s → r.valid s) (hnil : K [])
    (hK : ∀ {call j j'}, K j → j.All r.valid → j.Adds call r.moves j' →
      j.Mints (fun s => s.Fresh ∧ F s) call j' → (j'.Unique → j'.Legal) → K j')
    (h : ReachableBy view D σ) (hF : ∀ call s, ⟨call, .created s⟩ ∈ σ.journal → F s) :
    Ruled r view σ ∧ K σ.journal := by
  obtain ⟨σ₀, hinitial, hsteps⟩ := h
  induction hsteps with
  | refl =>
    refine ⟨hinitial.ruled, ?_⟩
    rw [hinitial.journal]
    exact hnil
  | @tail τ υ hsteps hstep ih =>
    obtain ⟨hstep, honly⟩ := hstep
    have hsound : Sound view τ :=
      (Reachable.sound ⟨σ₀, hinitial, Relation.ReflTransGen.mono (fun _ _ hstep => hstep.1) _ _ hsteps⟩)
    obtain ⟨l, hl, -⟩ := (Steps.grows (.single hstep) hsound)
    obtain ⟨hruled, hkept⟩ := ih fun call s hs => hF call s (by
      rw [hl]
      exact List.mem_append_right _ hs)
    have hruled' := hruled.step hr hstep (fun th hth => hby _ (honly th hth)) fun call s hs hnew =>
      hvalid s hnew (hF call s hs)
    obtain ⟨call, hadds, hmints⟩ := hruled.adds hstep
    refine ⟨hruled', hK hkept hruled.valid hadds (fun s hs => ?_) hruled'.told.legal⟩
    exact (hmints s hs).imp id fun hnew => ⟨hnew, hF call s hs⟩

end System

end DurableWorkflow

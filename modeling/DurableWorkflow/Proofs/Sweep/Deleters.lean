import DurableWorkflow.Proofs.Sweep.Rivals

/-!
# Sweeps with deletions

An update of an instance that was deleted is no conflict, and a sweep does not go on from it: it
ends the waits of the expired instances listed before the deleted one, and then it stops with a
fault and returns no identifiers. Those listed after it wait on (`sweep_stops_at_gone`).
-/

namespace DurableWorkflow

variable {R C H : Type} {view : R → Uuid → Option Instance}

/-- Nothing has changed, or nothing is there any more. -/
def Kept (a b : Option Instance) : Prop := b = a ∨ b = none

theorem Kept.refl (a : Option Instance) : Kept a a := .inl rfl

theorem Kept.trans {a b c : Option Instance} (hab : Kept a b) (hbc : Kept b c) : Kept a c := by
  rcases hbc with rfl | rfl
  · exact hab
  · exact .inr rfl

/-- Somebody deletes instances. -/
def Deleters (view : R → Uuid → Option Instance) (w v : World R H) : Prop :=
  ∀ id, Kept (view w.store id) (view v.store id)

theorem deleters_fate : Fate view (Deleters view : World R H → World R H → Prop)
    fun s => Kept (some s) where
  same _ := .refl _
  drift h hs := hs.trans (h _)
  cases h := h.imp_right .inr

theorem kept_of_deleters {w v : World R H} (h : Drifts (Deleters view) w v) (id : Uuid) :
    Kept (view w.store id) (view v.store id) := by
  induction h with
  | refl => exact .refl _
  | tail _ hdrift ih => exact ih.trans (hdrift id)

namespace Sweeper

variable {sweeper : Sweeper R} {now : Timestamp}

/-- Where instances are only deleted, none that has a turn is left alone, and all that the sweep
does not end stays as it was until it is deleted. -/
theorem Turns.deleted {turns : List (Instance × Bool)} {w v : World R H}
    (h : Turns sweeper view (Deleters view) turns w v) (hids : (turns.map (·.1.id)).Nodup)
    (hlisted : ∀ p ∈ turns, Kept (some p.1) (view w.store p.1.id)) :
    (∀ p ∈ turns, p.2 = true ∧ ∃ signal wall, p.1.awaited = some signal ∧
      Kept (some (p.1.timedOut signal wall)) (view v.store p.1.id)) ∧
    ∀ id, (∀ p ∈ turns, p.1.id ≠ id) → Kept (view w.store id) (view v.store id) := by
  induction h with
  | nil h => exact ⟨by simp, fun id _ => kept_of_deleters h id⟩
  | @ended s rest w u x v store signal wall hw hfound hsignal hstored hx hrest ih =>
    rw [List.map_cons, List.nodup_cons] at hids
    have hne {p : Instance × Bool} (hp : p ∈ rest) : s.id ≠ p.1.id := fun heq =>
      hids.1 (List.mem_map.2 ⟨p, hp, heq.symm⟩)
    have hbefore (id : Uuid) (hid : s.id ≠ id) : Kept (view w.store id) (view x.store id) := by
      have hlater := kept_of_deleters hx id
      simp only [hstored, if_neg hid] at hlater
      exact (kept_of_deleters hw id).trans hlater
    obtain ⟨hturns, hothers⟩ := ih hids.2 fun p hp => by
      rw [told_store]
      exact (hlisted p (List.mem_cons_of_mem _ hp)).trans (hbefore _ (hne hp))
    simp only [told_store] at hothers
    refine ⟨fun p hp => ?_, fun id hid => ?_⟩
    · rcases List.mem_cons.1 hp with rfl | hp
      · have hthere := kept_of_deleters hx s.id
        simp only [hstored, if_true] at hthere
        exact ⟨rfl, signal, wall, hsignal,
          hthere.trans (hothers s.id fun p hp => (hne hp).symm)⟩
      · exact hturns p hp
    · exact (hbefore id (hid _ (List.mem_cons_self ..))).trans
        (hothers id fun p hp => hid p (List.mem_cons_of_mem _ hp))
  | @overtaken s t rest w u v store hw hfound hlater hstored hrest ih =>
    have hthere := (hlisted (s, false) (List.mem_cons_self ..)).trans (kept_of_deleters hw s.id)
    rw [hfound] at hthere
    rcases hthere with hsame | hnone
    · cases hsame
      exact absurd hlater (Nat.lt_irrefl _)
    · cases hnone

/-- What a sweep has done among deletions: some of the expired instances had a turn, and `rest` had
none. -/
structure Halts (sweeper : Sweeper R) (view : R → Uuid → Option Instance) (now : Timestamp)
    (w : World R H) (ended rest : List Instance) (v : World R H) : Prop where
  listed : ∃ u listed, Drifts (Deleters view) w u ∧
    (sweeper.repository.listWaiting none u.store).1 = .ok listed ∧
    (∀ s, s ∈ listed ↔ view u.store s.id = some s ∧ s.status = .waiting) ∧
    listed.filter (·.isWaitExpired now) = ended ++ rest
  ended : ∀ s ∈ ended, ∃ signal wall, s.awaited = some signal ∧
    Kept (some (s.timedOut signal wall)) (view v.store s.id)
  rest : ∀ s ∈ rest, Kept (some s) (view v.store s.id)

theorem endedIds_of_all {turns : List (Instance × Bool)} (h : ∀ p ∈ turns, p.2 = true) :
    endedIds turns = (turns.map (·.1)).map (·.id) := by
  rw [endedIds, List.filter_eq_self.2 h, List.map_map]
  rfl

/-- Each turn ends a wait, and there are instances without a turn only after one that is gone. -/
theorem Swept.halts {expired : List Instance} {w v : World R H}
    {result : Except RepositoryFault (List Uuid)}
    (h : Swept sweeper view (Deleters view) (fun s => Kept (some s)) expired w result v)
    (hids : (expired.map (·.id)).Nodup) (hstored : ∀ s ∈ expired, view w.store s.id = some s) :
    ∃ ended rest, expired = ended ++ rest ∧
      (∀ s ∈ ended, ∃ signal wall, s.awaited = some signal ∧
        Kept (some (s.timedOut signal wall)) (view v.store s.id)) ∧
      (∀ s ∈ rest, Kept (some s) (view v.store s.id)) ∧
      (rest = [] ∧ result = .ok (ended.map (·.id)) ∨ ∃ s after, rest = s :: after ∧
        view v.store s.id = none ∧ result = .error .notFound) := by
  cases h with
  | all turns hall hturns =>
    obtain ⟨hended, -⟩ := hturns.deleted (nodup_turns hids hall) fun p hp =>
      .inl (hstored _ (hall ▸ List.mem_map_of_mem hp))
    refine ⟨turns.map (·.1), [], by rw [hall, List.append_nil], ?_, by simp,
      .inl ⟨rfl, by rw [endedIds_of_all fun p hp => (hended p hp).1]⟩⟩
    intro s hs
    obtain ⟨p, hp, rfl⟩ := List.mem_map.1 hs
    exact (hended p hp).2
  | @gone turns s after u _ store hall hturns hgone _ hsame hv =>
    rw [hall, List.map_append, List.nodup_append, List.map_map] at hids
    obtain ⟨hnodup, -, hdisjoint⟩ := hids
    obtain ⟨hended, hothers⟩ := hturns.deleted hnodup fun p hp =>
      .inl (hstored _ (hall ▸ List.mem_append_left _ (List.mem_map_of_mem hp)))
    have hend (id : Uuid) : Kept (view u.store id) (view v.store id) := by
      have hkept := kept_of_deleters hv id
      simp only [hsame] at hkept
      exact hkept
    refine ⟨turns.map (·.1), s :: after, hall, fun t ht => ?_, fun t ht => ?_,
      .inr ⟨s, after, rfl, ?_, rfl⟩⟩
    · obtain ⟨p, hp, rfl⟩ := List.mem_map.1 ht
      obtain ⟨-, signal, wall, hsignal, htimedOut⟩ := hended p hp
      exact ⟨signal, wall, hsignal, htimedOut.trans (hend p.1.id)⟩
    · have hlate := hothers t.id fun p hp =>
        hdisjoint _ (List.mem_map_of_mem hp) _ (List.mem_map_of_mem ht)
      rw [hstored t (hall ▸ List.mem_append_right _ ht)] at hlate
      exact hlate.trans (hend t.id)
    · have hkept := hend s.id
      rw [hgone] at hkept
      exact hkept.elim id id

/-- A sweep ends the waits of the expired instances up to one that it finds deleted. There it stops
with a fault: it returns no identifiers, and those after it still wait. -/
theorem sweep_stops_at_gone (hlaw : sweeper.repository.Lawful view)
    (hprompt : sweeper.repository.Prompt view) {w : World R H} (hw : Orderly view w.store)
    {c : Errand C H R (Except RepositoryFault (List Uuid))} {v : World R H}
    (h : Moves (Deleters view) Course.Step (sweeper.sweep now, w) (c, v)) :
    (∃ y, Course.Step (c, v) y) ∨ ∃ ended rest, sweeper.Halts view now w ended rest v ∧
      (rest = [] ∧ c = .done (.ok (ended.map (·.id))) ∨ ∃ s after, rest = s :: after ∧
        view v.store s.id = none ∧ c = .done (.error .notFound)) := by
  have hwaits {u : World R H} {s : Instance} (hu : Drifts (Deleters view) w u)
      (hs : view u.store s.id = some s) (hstatus : s.status = .waiting) : s.Waits := by
    rcases kept_of_deleters hu s.id with hkept | hgone
    · exact hw.waits (hkept ▸ hs) hstatus
    · rw [hgone] at hs
      cases hs
  rcases sweep_moves hlaw hprompt deleters_fate hwaits h with
    hstep | ⟨result, u, listed, rfl, hends⟩
  · exact .inl hstep
  · obtain ⟨ended, rest, hall, hended, hrest, hresult⟩ :=
      hends.swept.halts hends.distinct fun _ => hends.stored
    refine .inr ⟨ended, rest,
      ⟨⟨u, listed, hends.before, hends.answer, hends.mem, hall⟩, hended, hrest⟩, ?_⟩
    rcases hresult with ⟨hnone, rfl⟩ | ⟨s, after, hrest, hgone, rfl⟩
    · exact .inl ⟨hnone, rfl⟩
    · exact .inr ⟨s, after, hrest, hgone, rfl⟩

/-- The third one is deleted under the sweep, which has ended the wait of the first and says so to
nobody who called it. The last one, whose deadline has come as well, waits on. -/
theorem dormitory_halts : ∃ v : World Memory Unit,
    Moves (Deleters Memory.find?) Course.Step
      ((warden.sweep ⟨7, 0⟩ : Errand Unit Unit Memory (Except RepositoryFault (List Uuid))),
        dormitory) (.done (.error .notFound), v) ∧
      v.store.find? (.ofNat 1) = some ((dozing 1 ⟨5, 0⟩).timedOut "bell" ⟨7, 0⟩) ∧
      v.store.find? (.ofNat 4) = some (dozing 4 ⟨5, 0⟩) := by
  let w : World Memory Unit := { dormitory with store := dormitory.store.erase (.ofNat 3) }
  have hdeleters : Deleters Memory.find? dormitory w := fun id => by
    show Kept _ ((dormitory.store.erase (.ofNat 3)).find? id)
    rw [Memory.find?_erase]
    split
    · exact .inr rfl
    · exact .refl _
  have hacts : ((warden.sweepListed ⟨7, 0⟩ [] dozers :
      Errand Unit Unit Memory (Except RepositoryFault (List Uuid))).acts 5 w).map
        (fun y => (y.1.answer?, y.2.store.find? (.ofNat 1), y.2.store.find? (.ofNat 4))) =
      some (some (.error .notFound), some ((dozing 1 ⟨5, 0⟩).timedOut "bell" ⟨7, 0⟩),
        some (dozing 4 ⟨5, 0⟩)) := by rfl
  obtain ⟨⟨c, v⟩, hrun, heq⟩ := Option.map_eq_some_iff.1 hacts
  obtain ⟨hanswer, hfirst, hlast⟩ : c.answer? = some (.error .notFound) ∧ _ ∧ _ := by
    simpa only [Prod.mk.injEq] using heq
  obtain rfl := Course.of_answer? hanswer
  exact ⟨v, dormitory_moves hdeleters hrun, hfirst, hlast⟩

end Sweeper

end DurableWorkflow

import DurableWorkflow.Proofs.Instance.Move
import DurableWorkflow.Proofs.Journal.Repository

/-!
# What requests add to a journal

A `Noted` says of a request only that the call notes what it did. `Adds` says what that may be: it
reads what is stored, creates an instance that has not run, or stores what `M` makes of a version
that it knows. In a legal journal this version is the one that is stored.
-/

namespace DurableWorkflow

namespace Journal

/-- What one request of a call adds that stores only what `M` makes of a version it knows. -/
inductive Adds (call : Nat) (M : Instance → Instance → Prop) (j : Journal) : Journal → Prop
  | reads (l : List Instance) (h : ∀ s ∈ l, j.current s.id = some s) :
    Adds call M j (l.map (fun s => ⟨call, .read s⟩) ++ j)
  | created {s : Instance} (hstatus : s.status = .created) (h : s.WellFormed) :
    Adds call M j (⟨call, .created s⟩ :: j)
  | stored {t s : Instance} (ht : j.Knows call t) (h : M t s) :
    Adds call M j (⟨call, .stored { s with revision := s.revision + 1 }⟩ :: j)
  | deleted (id : Uuid) : Adds call M j (⟨call, .deleted id⟩ :: j)

/-- Every version that somebody has known is well-formed. -/
def WellFormed (j : Journal) : Prop :=
  ∀ e ∈ j, ∀ s, e.deed.version? = some s → s.WellFormed

variable {call : Nat} {M : Instance → Instance → Prop} {j j' : Journal} {s t : Instance} {id : Uuid}

theorem Adds.refl : Adds call M j j := .reads [] (by simp)

/-- Somebody has created or stored what is stored. -/
theorem mem_of_current (h : j.current id = some s) : ∃ e ∈ j, e.deed.version? = some s := by
  induction j with
  | nil => simp [current] at h
  | cons e j ih =>
    have hmore : current j id = some s → ∃ e' ∈ e :: j, e'.deed.version? = some s := fun h => by
      obtain ⟨e', hmem, he'⟩ := ih h
      exact ⟨e', List.mem_cons_of_mem _ hmem, he'⟩
    obtain ⟨call, d⟩ := e
    cases d with
    | created t | stored t =>
      simp only [current] at h
      split at h
      · exact ⟨_, List.mem_cons_self .., h⟩
      · exact hmore h
    | read t => exact hmore h
    | deleted i =>
      simp only [current] at h
      split at h
      · simp at h
      · exact hmore h

theorem WellFormed.current (h : j.WellFormed) (hs : j.current id = some s) : s.WellFormed := by
  obtain ⟨e, hmem, he⟩ := mem_of_current hs
  exact h e hmem s he

theorem Adds.wellFormed (h : Adds call M j j') (hM : ∀ t s, M t s → t.WellFormed → s.WellFormed)
    (hj : j.WellFormed) : j'.WellFormed := by
  intro e he u hu
  cases h with
  | reads l hl =>
    rcases List.mem_append.1 he with he | he
    · obtain ⟨s, hs, rfl⟩ := List.mem_map.1 he
      cases hu
      exact hj.current (hl u hs)
    · exact hj e he u hu
  | created _ hs =>
    rcases List.mem_cons.1 he with rfl | he
    · cases hu
      exact hs
    · exact hj e he u hu
  | @stored t s ht h =>
    rcases List.mem_cons.1 he with rfl | he
    · cases hu
      obtain ⟨d, hd, hversion⟩ := ht
      exact (hM t s h (hj _ hd t hversion)).revise _
    · exact hj e he u hu
  | deleted i =>
    rcases List.mem_cons.1 he with rfl | he
    · simp [Deed.version?] at hu
    · exact hj e he u hu

/-- What is stored takes the place of the version that it was made from. -/
theorem Legal.current_of_stored (hlegal : Legal (⟨call, .stored { s with revision := s.revision + 1 }⟩ :: j))
    (hu : j.Unique) (ht : j.Knows call t) (hid : s.id = t.id) (hrevision : s.revision = t.revision) :
    j.current t.id = some t := by
  obtain ⟨v, hv, -, hnext, -⟩ := hlegal.1
  obtain ⟨d, hd, hversion⟩ := ht
  change j.current s.id = some v at hv
  change s.revision + 1 = v.revision + 1 at hnext
  rw [hid] at hv
  obtain rfl | hlt := hlegal.2.later_of_version hu hd hversion hv
  · exact hv
  · omega

/-- A call stores in the place of the version that is stored. -/
theorem Adds.changes (h : Adds call M j j')
    (hM : ∀ t s, M t s → s.id = t.id ∧ s.revision = t.revision) (hlegal : j'.Legal)
    (hu : j'.Unique) (ht : j.current id = some t) :
    j'.current id = some t ∨ j'.current id = none ∨
      ∃ s, M t s ∧ j'.current id = some { s with revision := s.revision + 1 } := by
  cases h with
  | reads l =>
    left
    rw [current_reads]
    exact ht
  | @created s =>
    left
    have hne : s.id ≠ id := by
      rintro rfl
      have hnone := hlegal.1.1
      rw [ht] at hnone
      simp at hnone
    exact (if_neg hne).trans ht
  | @stored u s hknown hmove =>
    by_cases hid : s.id = id
    · obtain ⟨hsame, hrevision⟩ := hM u s hmove
      have huid : u.id = id := hsame.symm.trans hid
      have hu := hlegal.current_of_stored hu.tail hknown hsame hrevision
      obtain rfl : t = u := Option.some.inj ((huid ▸ ht).symm.trans hu)
      exact .inr (.inr ⟨s, hmove, if_pos hid⟩)
    · exact .inl ((if_neg hid).trans ht)
  | deleted i =>
    by_cases hid : i = id
    · exact .inr (.inl (if_pos hid))
    · exact .inl ((if_neg hid).trans ht)

end Journal

namespace Journaled

variable {R α : Type} {view : R → Uuid → Option Instance} {inner : Repository R} {call : Nat}
  {M : Instance → Instance → Prop} {j : Journaled R} {s t : Instance} {id : Uuid}

/-- A request that adds what `M` allows, and in whose answer `Q` holds with the notes taken. -/
def Files (call : Nat) (M : Instance → Instance → Prop) (j : Journaled R) (Q : α → Journal → Prop)
    (reply : Reply (Journaled R) α) : Prop :=
  j.journal.Adds call M reply.2.journal ∧ ∀ a, reply.1 = .ok a → Q a reply.2.journal

theorem noting_files {deeds : α → List Deed} {ask : R → Reply R α} {S : α → R → Prop}
    {Q : α → Journal → Prop} (hask : (ask j.store).Obeys view j.store S)
    (hok : ∀ a store, S a store →
      j.journal.Adds call M ((deeds a).map (Entry.mk call) ++ j.journal) ∧
        Q a ((deeds a).map (Entry.mk call) ++ j.journal)) :
    Files call M j Q (noting call deeds ask j) := by
  unfold noting
  revert hask
  obtain ⟨answer, store⟩ := ask j.store
  cases answer with
  | ok a =>
    intro hask
    obtain ⟨hadds, hq⟩ := hok a store hask
    exact ⟨hadds, fun b hb => Except.ok.inj hb ▸ hq⟩
  | error fault => exact fun _ => ⟨.refl, by simp⟩

theorem get_files (hlaw : inner.Lawful view) (h : j.Told view) :
    Files call M j (fun found j' => ∀ s ∈ found, ⟨call, .read s⟩ ∈ j')
      ((inner.journaled call).get id j) := by
  refine noting_files (hlaw.get id j.store) fun found store ⟨_, hfound⟩ => ?_
  cases found with
  | none => exact ⟨.refl, by simp⟩
  | some s =>
    have hcurrent : j.journal.current id = some s := by
      rw [← h.stored]
      exact hfound s rfl
    have hid := Journal.current_id hcurrent
    refine ⟨.reads [s] fun t ht => ?_, fun t ht => ?_⟩
    · obtain rfl := List.mem_singleton.1 ht
      rw [hid]
      exact hcurrent
    · cases ht
      exact List.mem_cons_self ..

theorem save_files (hlaw : inner.Lawful view) (hstatus : s.status = .created) (hs : s.WellFormed) :
    Files call M j (fun _ j' => j'.Knows call s) ((inner.journaled call).save s j) :=
  noting_files (hlaw.save s j.store) fun _ _ _ =>
    ⟨.created hstatus hs, _, List.mem_cons_self .., rfl⟩

theorem delete_files (hlaw : inner.Lawful view) :
    Files call M j (fun _ _ => True) ((inner.journaled call).delete id j) :=
  noting_files (hlaw.delete id j.store) fun _ _ _ => ⟨.deleted id, trivial⟩

theorem contextInfo_files (hlaw : inner.Lawful view) :
    Files call M j (fun _ _ => True) ((inner.journaled call).contextInfo id j) :=
  noting_files (hlaw.contextInfo id j.store) fun _ _ _ => ⟨.refl, trivial⟩

theorem listWaiting_files (hlaw : inner.Lawful view) (h : j.Told view) (signal : Option String) :
    Files call M j (fun found j' => ∀ s ∈ found, j'.Knows call s)
      ((inner.journaled call).listWaiting signal j) := by
  refine noting_files (hlaw.listWaiting signal j.store) fun found store ⟨_, hfound⟩ => ?_
  have hmap : (found.map Deed.read).map (Entry.mk call) = found.map fun s => ⟨call, .read s⟩ :=
    List.map_map
  rw [hmap]
  rw [h.stored] at hfound
  exact ⟨.reads found hfound, fun s hs => ⟨.read s, by simp [hs], rfl⟩⟩

/-- A changed instance is stored under the next revision and noted, or nothing is noted. -/
theorem persist_cases (inner : Repository R) (call : Nat) (s : Instance) (j : Journaled R) :
    (∃ store, (inner.journaled call).persist s j = (.stored { s with revision := s.revision + 1 },
      ⟨store, ⟨call, .stored { s with revision := s.revision + 1 }⟩ :: j.journal⟩)) ∨
    (∃ fault store, (inner.journaled call).persist s j = (.refused fault, ⟨store, j.journal⟩)) ∨
      (inner.journaled call).persist s j = (.exhausted, j) := by
  unfold Repository.persist
  split
  · have hask : (inner.journaled call).update { s with revision := s.revision + 1 } s.revision j =
        noting call (fun _ => [.stored { s with revision := s.revision + 1 }])
          (inner.update { s with revision := s.revision + 1 } s.revision) j := rfl
    simp only [hask, noting]
    obtain ⟨answer, store⟩ := inner.update { s with revision := s.revision + 1 } s.revision j.store
    cases answer with
    | ok => exact .inl ⟨store, rfl⟩
    | error fault => exact .inr (.inl ⟨fault, store, rfl⟩)
  · exact .inr (.inr rfl)

theorem persist_adds (inner : Repository R) (ht : j.journal.Knows call t) (h : M t s) :
    j.journal.Adds call M ((inner.journaled call).persist s j).2.journal := by
  obtain ⟨store, heq⟩ | ⟨fault, store, heq⟩ | heq := persist_cases inner call s j
  · rw [heq]
    exact .stored ht h
  · rw [heq]
    exact .refl
  · rw [heq]
    exact .refl

end Journaled

end DurableWorkflow

import DurableWorkflow.Proofs.Journal.Basic

/-!
# Fencing

What follows in every legal journal. Every stored version has a revision of its own, so of the calls
that read one version only one can have stored its successor. And once somebody else has changed an
instance after a call came to know it, that call never stores or creates it again: what it would
have to know it could only learn by reading the instance a second time.
-/

namespace DurableWorkflow

/-- Deeds after which another version is stored. -/
def Deed.changes : Deed → Bool
  | .read _ => false
  | _ => true

namespace Journal

variable {j l l' : Journal} {call call' : Nat} {d : Deed} {s t u : Instance} {id : Uuid}

/-- A stored version is later than all that were known before. -/
theorem Legal.lt_of_stored (hj : Legal (⟨call, .stored s⟩ :: j)) (hu : j.Unique)
    (h : ⟨call', d⟩ ∈ j) (ht : d.version? = some t) (hid : t.id = s.id) :
    t.revision < s.revision := by
  obtain ⟨u, hcurrent, -, hrevision, -⟩ := hj.1
  rw [← hid] at hcurrent
  rcases hj.2.later_of_version hu h ht hcurrent with rfl | hlt
  · omega
  · omega

/-- An instance that has been deleted stays away. -/
theorem Legal.gone (hj : Legal (l ++ ⟨call, .deleted id⟩ :: j))
    (hu : Unique (l ++ ⟨call, .deleted id⟩ :: j)) (hid : id ∈ j.created) :
    current (l ++ ⟨call, .deleted id⟩ :: j) id = none := by
  induction l with
  | nil => exact if_pos rfl
  | cons e l ih =>
    obtain ⟨c, d⟩ := e
    have hnone := ih hj.2 hu.tail
    cases d with
    | created s =>
      refine (if_neg fun heq => hu.not_mem ?_).trans hnone
      rw [heq, mem_created]
      obtain ⟨c, s, hmem, hs⟩ := mem_created.1 hid
      exact ⟨c, s, List.mem_append_right _ (List.mem_cons_of_mem _ hmem), hs⟩
    | read s => exact hnone
    | stored s =>
      refine (if_neg fun heq => ?_).trans hnone
      obtain ⟨u, hcurrent, -⟩ := hj.1
      rw [heq] at hcurrent
      exact absurd (hnone.symm.trans hcurrent) (by simp)
    | deleted i =>
      simp only [List.cons_append, current]
      split
      · rfl
      · exact hnone

/-- A version that was known before a change is never the stored one after it. -/
theorem Legal.ne_of_change (hj : Legal (l ++ ⟨call, d⟩ :: l')) (hu : Unique (l ++ ⟨call, d⟩ :: l'))
    (hd : d.changes = true) {b : Deed} (hb : ⟨call', b⟩ ∈ l') (ht : b.version? = some t)
    (hid : t.id = d.id) : current (l ++ ⟨call, d⟩ :: l') t.id ≠ some t := by
  intro hcurrent
  have hold := hj.of_append
  have holdu := hu.of_append
  cases d with
  | created s =>
    have hmem := hold.2.mem_created_of_version hb ht
    rw [hid] at hmem
    exact holdu.not_mem hmem
  | read s => simp [Deed.changes] at hd
  | stored s =>
    have hlt := hold.lt_of_stored holdu.tail hb ht hid
    have hid' : s.id = t.id := hid.symm
    rw [← hid'] at hcurrent
    have hmem : (⟨call, .stored s⟩ : Entry) ∈ l ++ ⟨call, .stored s⟩ :: l' := by simp
    rcases hj.later_of_version hu hmem rfl hcurrent with rfl | hlt'
    · omega
    · omega
  | deleted i =>
    obtain rfl : t.id = i := hid
    rw [hj.gone hu (hold.2.mem_created_of_version hb ht)] at hcurrent
    simp at hcurrent

/-- Once somebody else has changed an instance that a call knows, the call neither stores it nor
creates it again. -/
theorem Legal.overtaken (hj : Legal (l ++ ⟨call', d⟩ :: l')) (hu : Unique (l ++ ⟨call', d⟩ :: l'))
    (hne : call' ≠ call) (hd : d.changes = true) (hknown : Knows l' call t) (hid : t.id = d.id) :
    ∀ s : Instance, s.id = d.id → ⟨call, .stored s⟩ ∉ l ∧ ⟨call, .created s⟩ ∉ l := by
  obtain ⟨b, hb, ht⟩ := hknown
  have hbid : b.id = d.id := by
    rw [← hid]
    cases b <;> cases ht <;> rfl
  induction l with
  | nil => simp
  | cons e l ih =>
    have hrest := ih hj.2 hu.tail
    intro s hs
    refine ⟨fun hmem => ?_, fun hmem => ?_⟩
    · rcases List.mem_cons.1 hmem with rfl | hmem
      · obtain ⟨u, hcurrent, ⟨b', hb', hversion⟩, -⟩ := hj.1
        have huid : u.id = d.id := (current_id hcurrent).trans hs
        rw [← huid.trans hs.symm] at hcurrent
        have hnot : ∀ c b, ⟨c, b⟩ ∈ l' → b.version? ≠ some u := fun c b hb hu' =>
          Legal.ne_of_change hj.2 hu.tail hd hb hu' huid hcurrent
        rcases List.mem_append.1 hb' with hb' | hb'
        · cases b' with
          | created v =>
            cases hversion
            exact (hrest u huid).2 hb'
          | read v =>
            cases hversion
            obtain ⟨l₁, l₂, rfl⟩ := List.append_of_mem hb'
            have hread : Legal (⟨call, .read u⟩ :: (l₂ ++ ⟨call', d⟩ :: l')) :=
              Legal.of_append (l := l₁) (by simpa using hj.2)
            have heq := hread.1.2 b (by simp [hb]) (hbid.trans huid.symm)
            exact hnot call b hb (by rw [heq]; rfl)
          | stored v =>
            cases hversion
            exact (hrest u huid).1 hb'
          | deleted i => simp [Deed.version?] at hversion
        · rcases List.mem_cons.1 hb' with heq | hb'
          · exact hne (Entry.mk.inj heq).1.symm
          · exact hnot call b' hb' hversion
      · exact (hrest s hs).1 hmem
    · rcases List.mem_cons.1 hmem with rfl | hmem
      · have hmem := Legal.mem_created_of_version hj.of_append.2 hb ht
        refine hu.not_mem ?_
        rw [hs, ← hid, mem_created]
        obtain ⟨c, v, hv, hvid⟩ := mem_created.1 hmem
        exact ⟨c, v, List.mem_append_right _ (List.mem_cons_of_mem _ hv), hvid⟩
      · exact (hrest s hs).2 hmem

end Journal

end DurableWorkflow

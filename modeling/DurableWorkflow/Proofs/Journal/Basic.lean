import DurableWorkflow.Instance.Basic

/-!
# Journals

What was done to the stored instances, and by which call: the latest entry first. A journal says
which version of an instance is stored (`current`). In a legal journal an instance is created once,
in revision zero; a call reads what is stored, and no instance twice; and a call stores only the
successor of a version that is stored and that it knows itself, because it has created, read or
stored it. Who deletes knows nothing. So revisions only grow, and a version that is still stored has
not been changed since the call came to know it.

That identifiers are not given twice is `Unique`. It is what the source of identifiers promises.
-/

namespace DurableWorkflow

/-- What was done to the stored instances. -/
inductive Deed where
  | created (s : Instance)
  | read (s : Instance)
  | stored (s : Instance)
  | deleted (id : Uuid)

/-- A deed and the call that did it. -/
structure Entry where
  call : Nat
  deed : Deed

namespace Deed

/-- The instance that the deed is about. -/
def id : Deed → Uuid
  | created s | read s | stored s => s.id
  | deleted id => id

/-- The version that whoever does it knows afterwards. -/
def version? : Deed → Option Instance
  | created s | read s | stored s => some s
  | deleted _ => none

end Deed

abbrev Journal := List Entry

namespace Journal

/-- The stored version of an instance. -/
def current : Journal → Uuid → Option Instance
  | [], _ => none
  | ⟨_, .created s⟩ :: j, id | ⟨_, .stored s⟩ :: j, id => if s.id = id then some s else current j id
  | ⟨_, .read _⟩ :: j, id => current j id
  | ⟨_, .deleted i⟩ :: j, id => if i = id then none else current j id

/-- A call knows a version. -/
def Knows (j : Journal) (call : Nat) (t : Instance) : Prop :=
  ∃ d, ⟨call, d⟩ ∈ j ∧ d.version? = some t

/-- The call has not done anything to the instance. -/
def Untouched (j : Journal) (call : Nat) (id : Uuid) : Prop :=
  ∀ d, ⟨call, d⟩ ∈ j → d.id ≠ id

/-- May the call do this next? -/
def Allows (j : Journal) (call : Nat) : Deed → Prop
  | .created s => j.current s.id = none ∧ j.Untouched call s.id ∧ s.revision = 0 ∧
      s.status = .created
  | .read s => j.current s.id = some s ∧ ∀ d, ⟨call, d⟩ ∈ j → d.id = s.id → d = .read s
  | .stored s => ∃ t, j.current s.id = some t ∧ j.Knows call t ∧ s.revision = t.revision + 1 ∧
      t.status.allows s.status = true
  | .deleted _ => ∀ t, ¬j.Knows call t

def Legal : Journal → Prop
  | [] => True
  | ⟨call, d⟩ :: j => Allows j call d ∧ Legal j

/-- The identifiers of the created instances, the latest first. -/
def created (j : Journal) : List Uuid :=
  j.filterMap fun e =>
    match e.deed with
    | .created s => some s.id
    | _ => none

/-- No identifier has been given to two instances. -/
def Unique (j : Journal) : Prop := j.created.Nodup

/-- More is noted, by calls of which `p` holds. -/
def Grows (p : Nat → Prop) (j j' : Journal) : Prop := ∃ l, j' = l ++ j ∧ ∀ e ∈ l, p e.call

/-- What one request of a call adds to a journal: what it has read, or else one deed. -/
inductive Noted (call : Nat) (j : Journal) : Journal → Prop where
  | reads (l : List Instance) : Noted call j (l.map (fun s => ⟨call, .read s⟩) ++ j)
  | deed (d : Deed) : Noted call j (⟨call, d⟩ :: j)

variable {j j' j'' l : Journal} {e : Entry} {call : Nat} {d : Deed} {s t u : Instance} {id : Uuid}

/-! ### More notes -/

namespace Grows

variable {p : Nat → Prop}

theorem refl : Grows p j j := ⟨[], rfl, by simp⟩

theorem trans (h : Grows p j j') (h' : Grows p j' j'') : Grows p j j'' := by
  obtain ⟨l, rfl, hl⟩ := h
  obtain ⟨l', rfl, hl'⟩ := h'
  refine ⟨l' ++ l, (List.append_assoc ..).symm, fun e he => ?_⟩
  rcases List.mem_append.1 he with he | he
  · exact hl' e he
  · exact hl e he

theorem mem (h : Grows p j j') (he : e ∈ j) : e ∈ j' := by
  obtain ⟨l, rfl, -⟩ := h
  exact List.mem_append_right _ he

theorem knows (h : Grows p j j') (ht : j.Knows call t) : j'.Knows call t := by
  obtain ⟨d, hd, hversion⟩ := ht
  exact ⟨d, h.mem hd, hversion⟩

end Grows

theorem Noted.refl : Noted call j j := .reads []

theorem Noted.grows (h : Noted call j j') : Grows (· = call) j j' := by
  cases h with
  | reads l => exact ⟨_, rfl, by simp⟩
  | deed d => exact ⟨[_], rfl, by simp⟩

/-! ### What is stored -/

theorem current_reads (call : Nat) (l : List Instance) (j : Journal) :
    current (l.map (fun s => ⟨call, .read s⟩) ++ j) = j.current := by
  induction l with
  | nil => rfl
  | cons s l ih => exact ih

theorem current_id (h : j.current id = some s) : s.id = id := by
  induction j with
  | nil => simp [current] at h
  | cons e j ih =>
    obtain ⟨call, d⟩ := e
    cases d with
    | created t | stored t =>
      simp only [current] at h
      split at h
      · next hid =>
        cases h
        exact hid
      · exact ih h
    | read t => exact ih h
    | deleted i =>
      simp only [current] at h
      split at h
      · simp at h
      · exact ih h

theorem Legal.of_append (h : Legal (l ++ j)) : Legal j := by
  induction l with
  | nil => exact h
  | cons e l ih => exact ih h.2

theorem Unique.of_append (h : Unique (l ++ j)) : Unique j := by
  rw [Unique, created, List.filterMap_append] at h
  exact (List.nodup_append.1 h).2.1

theorem Grows.unique {p : Nat → Prop} (h : Grows p j j') (hu : j'.Unique) : j.Unique := by
  obtain ⟨l, rfl, -⟩ := h
  exact hu.of_append

theorem Unique.tail (h : Unique (e :: j)) : Unique j := of_append (l := [e]) h

theorem mem_created : id ∈ j.created ↔ ∃ call s, ⟨call, .created s⟩ ∈ j ∧ s.id = id := by
  rw [created, List.mem_filterMap]
  constructor
  · rintro ⟨⟨call, d⟩, hmem, h⟩
    cases d with
    | created s =>
      exact ⟨call, s, hmem, by simpa using h⟩
    | read | stored | deleted => simp at h
  · rintro ⟨call, s, hmem, rfl⟩
    exact ⟨_, hmem, rfl⟩

theorem Unique.not_mem (h : Unique (⟨call, .created s⟩ :: j)) : s.id ∉ j.created := by
  rw [Unique, created, List.filterMap_cons] at h
  exact (List.nodup_cons.1 h).1

/-- What is stored has been created. -/
theorem Legal.mem_created_of_current (hj : j.Legal) (h : j.current id = some s) :
    id ∈ j.created := by
  induction j generalizing s with
  | nil => simp [current] at h
  | cons e j ih =>
    obtain ⟨call, d⟩ := e
    have hmore : id ∈ created j → id ∈ created (⟨call, d⟩ :: j) := fun hid => by
      obtain ⟨c, s, hmem, hs⟩ := mem_created.1 hid
      exact mem_created.2 ⟨c, s, List.mem_cons_of_mem _ hmem, hs⟩
    cases d with
    | created t =>
      simp only [current] at h
      split at h
      · next hid => exact mem_created.2 ⟨call, t, List.mem_cons_self .., hid⟩
      · exact hmore (ih hj.2 h)
    | stored t =>
      simp only [current] at h
      split at h
      · next hid =>
        obtain ⟨u, hu, -⟩ := hj.1
        rw [hid] at hu
        exact hmore (ih hj.2 hu)
      · exact hmore (ih hj.2 h)
    | read t => exact hmore (ih hj.2 h)
    | deleted i =>
      simp only [current] at h
      split at h
      · simp at h
      · exact hmore (ih hj.2 h)

/-- A version that somebody knows is one of an instance that has been created. -/
theorem Legal.mem_created_of_version (hj : j.Legal) (h : ⟨call, d⟩ ∈ j) (ht : d.version? = some t) :
    t.id ∈ j.created := by
  induction j with
  | nil => simp at h
  | cons e j ih =>
    rcases List.mem_cons.1 h with rfl | hold
    · cases d with
      | created =>
        cases ht
        exact mem_created.2 ⟨call, t, List.mem_cons_self .., rfl⟩
      | read =>
        cases ht
        exact Legal.mem_created_of_current hj hj.1.1
      | stored =>
        cases ht
        exact Legal.mem_created_of_current hj (s := t) (if_pos rfl)
      | deleted => simp [Deed.version?] at ht
    · obtain ⟨c, s, hmem, hs⟩ := mem_created.1 (ih hj.2 hold)
      exact mem_created.2 ⟨c, s, List.mem_cons_of_mem _ hmem, hs⟩

/-- An instance that somebody has known is gone, or stored in that version or a later one. -/
theorem Legal.later_of_version (hj : j.Legal) (hu : j.Unique) (h : ⟨call, d⟩ ∈ j)
    (ht : d.version? = some t) (hs : j.current t.id = some s) : s = t ∨ t.revision < s.revision := by
  induction j generalizing s with
  | nil => simp at h
  | cons e j ih =>
    rcases List.mem_cons.1 h with rfl | hold
    · left
      cases d with
      | created v | stored v =>
        cases ht
        simpa [current] using hs.symm
      | read v =>
        cases ht
        have hv := hj.1.1
        rw [current, hv] at hs
        exact (Option.some.inj hs).symm
      | deleted => simp [Deed.version?] at ht
    · obtain ⟨c, b⟩ := e
      have hlater : ∀ {s}, current j t.id = some s → s = t ∨ t.revision < s.revision :=
        fun hs => ih hj.2 hu.tail hold hs
      cases b with
      | created v =>
        simp only [current] at hs
        split at hs
        · next hid =>
          have hmem := hj.2.mem_created_of_version hold ht
          rw [← hid] at hmem
          exact absurd hmem hu.not_mem
        · exact hlater hs
      | stored v =>
        simp only [current] at hs
        split at hs
        · next hid =>
          cases hs
          obtain ⟨w, hw, -, hrevision, -⟩ := hj.1
          rw [hid] at hw
          right
          rcases hlater hw with hw | hw
          · rw [← hw]
            omega
          · omega
        · exact hlater hs
      | read v => exact hlater hs
      | deleted i =>
        simp only [current] at hs
        split at hs
        · simp at hs
        · exact hlater hs

end Journal

end DurableWorkflow

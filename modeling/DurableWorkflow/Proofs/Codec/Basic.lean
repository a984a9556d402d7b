import DurableWorkflow.Json.Decode

/-!
# Reading in steps

What a reader that succeeded has read at each of its steps, and how the fields of a record are found
in an object whose members were written from a list of slots, some of them empty.
-/

namespace DurableWorkflow

theorem ok_of_bind {ε α β : Type} {x : Except ε α} {f : α → Except ε β} {b : β}
    (h : x >>= f = .ok b) : ∃ a, x = .ok a ∧ f a = .ok b := by
  cases x with
  | error e => cases h
  | ok a => exact ⟨a, rfl, h⟩

theorem some_bind {α β : Type} {x : Option α} {f : α → Option β} {a : α} {b : β}
    (hx : x = some a) (hf : f a = some b) : x >>= f = some b := by
  rw [hx]
  exact hf

theorem of_some_bind {α β : Type} {x : Option α} {f : α → Option β} {b : β}
    (h : x >>= f = some b) : ∃ a, x = some a ∧ f a = some b := Option.bind_eq_some_iff.1 h

namespace Json

/-! ### Members written from slots -/

/-- The members for the slots that hold a value. -/
def filled (slots : List (String × Option Json)) : List (String × Json) :=
  slots.filterMap fun slot => slot.2.map (slot.1, ·)

variable {slots : List (String × Option Json)} {name : String}

theorem mem_filled {m : String × Json} : m ∈ filled slots ↔ (m.1, some m.2) ∈ slots := by
  simp only [filled, List.mem_filterMap, Option.map_eq_some_iff, Prod.exists]
  constructor
  · rintro ⟨n, o, hmem, j, rfl, rfl⟩
    exact hmem
  · exact fun hmem => ⟨m.1, some m.2, hmem, m.2, rfl, rfl⟩

theorem nodup_filled (h : (slots.map (·.1)).Nodup) : ((filled slots).map (·.1)).Nodup := by
  induction slots with
  | nil => exact List.nodup_nil
  | cons slot rest ih =>
    obtain ⟨hnew, hrest⟩ := List.nodup_cons.1 h
    obtain ⟨name, o⟩ := slot
    cases o with
    | none => exact ih hrest
    | some j =>
      refine List.nodup_cons.2 ⟨fun hmem => hnew ?_, ih hrest⟩
      obtain ⟨m, hm, hname⟩ := List.mem_map.1 hmem
      exact List.mem_map.2 ⟨(m.1, some m.2), mem_filled.1 hm, hname⟩

theorem find?_filled (h : (slots.map (·.1)).Nodup) {o : Option Json} (hmem : (name, o) ∈ slots) :
    ((filled slots).find? (·.1 == name)).map (·.2) = o := by
  induction slots with
  | nil => cases hmem
  | cons slot rest ih =>
    obtain ⟨hnew, hrest⟩ := List.nodup_cons.1 h
    obtain rfl | hin := List.mem_cons.1 hmem
    · cases o with
      | some j => simp [filled]
      | none =>
        -- the name is in no other slot, so there is no such member
        simp only [filled, List.filterMap_cons, Option.map_none, Option.map_eq_none_iff,
          List.find?_eq_none]
        intro m hm hname
        exact hnew (List.mem_map.2 ⟨(m.1, some m.2), mem_filled.1 hm, by simpa using hname⟩)
    · have hne : slot.1 ≠ name := fun he => hnew (List.mem_map.2 ⟨_, hin, he.symm⟩)
      obtain ⟨n, o'⟩ := slot
      cases o' with
      | none => exact ih hrest hin
      | some j =>
        have hskip : (n == name) = false := by simpa using hne
        simpa [filled, hskip] using ih hrest hin

theorem length_filter_name_le_one {members : List (String × Json)}
    (h : (members.map (·.1)).Nodup) (name : String) :
    (members.filter (·.1 == name)).length ≤ 1 := by
  induction members with
  | nil => simp
  | cons m rest ih =>
    obtain ⟨hnew, hrest⟩ := List.nodup_cons.1 h
    by_cases hm : (m.1 == name) = true
    · have hnone : rest.filter (·.1 == name) = [] := by
        refine List.filter_eq_nil_iff.2 fun n hn hname => hnew ?_
        exact List.mem_map.2 ⟨n, hn, (beq_iff_eq.1 hname).trans (beq_iff_eq.1 hm).symm⟩
      rw [List.filter_cons, if_pos hm, hnone]
      exact Nat.le_refl _
    · rw [List.filter_cons, if_neg hm]
      exact ih hrest

namespace Fields

variable {α : Type} {f : Json → Option α}

theorem ofJson?_filled (names : List String) (h : (slots.map (·.1)).Nodup) :
    ofJson? names (.obj (filled slots)) = some (.named (filled slots)) := by
  rw [ofJson?, if_pos]
  exact List.all_eq_true.2 fun name _ => by
    simpa using length_filter_name_le_one (nodup_filled h) name

theorem get?_filled (h : (slots.map (·.1)).Nodup) {o : Option Json} (hmem : (name, o) ∈ slots) :
    (named (filled slots)).get? name = o := find?_filled h hmem

theorem required_filled (h : (slots.map (·.1)).Nodup) {j : Json} {a : α}
    (hmem : (name, some j) ∈ slots) (ha : f j = some a) :
    (named (filled slots)).required name f = some a := by
  simp [required, get?_filled h hmem, ha]

theorem orElse_filled (h : (slots.map (·.1)).Nodup) {j : Json} {a value : α}
    (hmem : (name, some j) ∈ slots) (ha : f j = some a) :
    (named (filled slots)).orElse name value f = some a := by
  simp [orElse, get?_filled h hmem, ha]

theorem optional_filled (h : (slots.map (·.1)).Nodup) {g : α → Json} {o : Option α}
    (hmem : (name, o.map g) ∈ slots) (hf : ∀ a ∈ o, f (g a) = some a)
    (hnull : f .null = none) : (named (filled slots)).optional name f = some o := by
  cases o with
  | none => simp [optional, orElse, get?_filled h hmem]
  | some a =>
    have ha := hf a rfl
    have : toOption? f (g a) = some (some a) := by
      unfold toOption?
      split
      · next hj => simp [hj, hnull] at ha
      · simp [ha]
    simpa [optional, orElse, get?_filled h hmem] using this

/-! ### What a field was read from -/

theorem required_some {fs : Fields} {a : α} (h : fs.required name f = some a) :
    ∃ j, fs.get? name = some j ∧ f j = some a := Option.bind_eq_some_iff.1 h

theorem orElse_some {fs : Fields} {a value : α} (h : fs.orElse name value f = some a) :
    a = value ∨ ∃ j, fs.get? name = some j ∧ f j = some a := by
  unfold orElse at h
  split at h
  · exact .inl (Option.some.inj h).symm
  · next hget => exact .inr ⟨_, hget, h⟩

theorem optional_some {fs : Fields} {o : Option α} (h : fs.optional name f = some o) :
    ∀ a ∈ o, ∃ j, fs.get? name = some j ∧ f j = some a := by
  rintro a rfl
  obtain h | ⟨j, hget, h⟩ := orElse_some h
  · cases h
  · unfold toOption? at h
    split at h
    · cases h
    · exact ⟨_, hget, by simpa using h⟩

end Fields

end Json

end DurableWorkflow

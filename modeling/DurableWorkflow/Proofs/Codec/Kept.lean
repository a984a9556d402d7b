import DurableWorkflow.Proofs.Codec.Instance
import DurableWorkflow.Proofs.Json.Text

/-!
# Values kept by their text

A value is kept if it is the value that its text is read as. The records inside an instance are kept,
and the instance is if the values of any kind that it carries are.
-/

namespace DurableWorkflow

namespace Json

/-- The value is read from its text within `depth`. -/
structure Kept (depth : Nat) (j : Json) : Prop where
  readable : j.isReadable = true
  narrow : j.Narrow
  exact : j.reread = j
  depth : j.depth ≤ depth

theorem parseAs?_kept {α : Type} {f : Json → Option α} {j : Json} (h : Kept maxDepth j) :
    parseAs? f j.compact = f j := by
  rw [parseAs?_compact ⟨h.readable, h.narrow, written_of_reread h.exact⟩ h.depth, h.exact]

namespace Kept

variable {n : Nat}

theorem mono {m : Nat} {j : Json} (h : Kept n j) (hle : n ≤ m) : Kept m j :=
  ⟨h.readable, h.narrow, h.exact, Nat.le_trans h.depth hle⟩

theorem str (s : String) : Kept n (.str s) := ⟨rfl, rfl, rfl, Nat.zero_le n⟩

theorem bool (b : Bool) : Kept n (.bool b) := ⟨rfl, rfl, rfl, Nat.zero_le n⟩

theorem nat {m : Nat} (h : m < twoTo 64) : Kept n (.nat m) := by
  refine ⟨rfl, ?_, rfl, Nat.zero_le n⟩
  simp only [Narrow, Json.nat, every, isNarrow, Bool.and_eq_true, decide_eq_true_eq]
  omega

theorem arr {items : List Json} (h : ∀ j ∈ items, Kept n j) : Kept (n + 1) (.arr items) where
  readable := itemsReadable_iff.2 fun j hj => (h j hj).readable
  narrow := every_arr.2 ⟨rfl, fun j hj => (h j hj).narrow⟩
  exact := reread_arr.2 fun j hj => (h j hj).exact
  depth := Nat.succ_le_succ (itemsDepth_le.2 fun j hj => (h j hj).depth)

theorem obj {members : List (String × Json)} (h : ∀ m ∈ members, Kept n m.2) :
    Kept (n + 1) (.obj members) where
  readable := membersReadable_iff.2 fun m hm => (h m hm).readable
  narrow := every_obj.2 ⟨rfl, fun m hm => (h m hm).narrow⟩
  exact := reread_obj.2 fun m hm => (h m hm).exact
  depth := Nat.succ_le_succ (membersDepth_le.2 fun m hm => (h m hm).depth)

theorem filled {slots : List (String × Option Json)}
    (h : ∀ slot ∈ slots, ∀ j ∈ slot.2, Kept n j) : Kept (n + 1) (.obj (filled slots)) :=
  obj fun m hm => h _ (mem_filled.1 hm) m.2 rfl

theorem ofList {α : Type} {f : α → Json} {as : List α} (h : ∀ a ∈ as, Kept n (f a)) :
    Kept (n + 1) (Json.ofList f as) :=
  arr fun j hj => by
    obtain ⟨a, ha, rfl⟩ := List.mem_map.1 hj
    exact h a ha

/-- What is written in any case. -/
theorem some {j : Json} (h : Kept n j) : ∀ k ∈ Option.some j, Kept n k := by
  rintro _ ⟨rfl⟩
  exact h

/-- What is written only where there is a value. -/
theorem option {α : Type} {f : α → Json} {o : Option α} (h : ∀ a ∈ o, Kept n (f a)) :
    ∀ j ∈ o.map f, Kept n j := by
  intro j hj
  obtain ⟨a, ha, rfl⟩ := Option.map_eq_some_iff.1 hj
  exact h a ha

end Kept

end Json

open Json

variable {n : Nat}

theorem NodeId.kept {node : NodeId} (h : node < twoTo 32) : Kept n node.toJson :=
  .nat (Nat.lt_trans h (by decide))

theorem TraceOutcome.kept (o : TraceOutcome) : Kept (n + 1) o.toJson := by
  cases o with
  | succeeded => exact .obj (by simp [Kept.str])
  | failed message shouldRetry => exact .obj (by simp [Kept.str, Kept.bool])
  | suspended signal => exact .obj (by simp [Kept.str])

theorem StepTrace.kept {t : StepTrace} (h : t.Valid) : Kept (n + 2) t.toJson := by
  rw [toJson_eq]
  refine .filled fun slot hslot => ?_
  simp only [slots, List.mem_cons, List.not_mem_nil, or_false] at hslot
  rcases hslot with rfl | rfl | rfl | rfl | rfl | rfl
  · exact (Kept.str _).some
  · exact (NodeId.kept h.node).some
  · exact (Kept.str _).some
  · exact (Kept.str _).some
  · exact t.outcome.kept.some
  · exact (Kept.nat (Nat.lt_trans h.attempts (by decide))).some

theorem Signal.kept {s : Signal} (h : Kept n s.payload) : Kept (n + 1) s.toJson := by
  rw [toJson_eq]
  refine .filled fun slot hslot => ?_
  simp only [slots, List.mem_cons, List.not_mem_nil, or_false] at hslot
  rcases hslot with rfl | rfl | rfl
  · exact (Kept.str _).some
  · exact h.some
  · exact (Kept.str _).some

namespace Instance

/-- The values of any kind are kept, each at its depth inside the instance. -/
structure Keeps (depth : Nat) (s : Instance) : Prop where
  context : Kept (depth - 1) s.context
  payload : ∀ signal ∈ s.delivered, Kept (depth - 2) signal.payload

theorem kept {s : Instance} (h : s.Valid) (hk : s.Keeps (n + 4)) : Kept (n + 4) s.toJson := by
  rw [toJson_eq]
  refine .filled fun slot hslot => ?_
  simp only [slots, List.mem_cons, List.not_mem_nil, or_false] at hslot
  rcases hslot with rfl | rfl | rfl | rfl | rfl | rfl | rfl | rfl | rfl | rfl | rfl | rfl | rfl |
    rfl | rfl | rfl
  · exact (Kept.str _).some
  · exact (Kept.str _).some
  · exact (Kept.str _).some
  · exact (Kept.str _).some
  · exact hk.context.some
  · exact (Kept.str _).some
  · exact (Kept.str _).some
  · exact (Kept.str _).some
  · exact .option fun _ _ => .str _
  · exact .option fun n hn => NodeId.kept (h.waitingNode n hn)
  · exact .option fun _ _ => .str _
  · exact (Kept.ofList fun n hn => NodeId.kept (h.pending n hn)).some
  · exact .option fun signal hsignal => Signal.kept (hk.payload signal hsignal)
  · exact (Kept.ofList fun t ht => StepTrace.kept (h.history t ht)).some
  · exact .option fun _ _ => .str _
  · exact (Kept.nat h.revision).some

end Instance

/-! ### What is read of an instance

Only the values of any kind that an instance carries hold floating point numbers. So what is read
where an instance has been written is the instance with these values as they are read.
-/

theorem Json.rereadMembers_filled (slots : List (String × Option Json)) :
    rereadMembers (filled slots) = filled (slots.map fun slot => (slot.1, slot.2.map reread)) := by
  induction slots with
  | nil => rfl
  | cons slot rest ih =>
    obtain ⟨name, o⟩ := slot
    cases o with
    | none => exact ih
    | some j => exact congrArg ((name, j.reread) :: ·) ih

theorem Json.reread_ofList {α : Type} {f : α → Json} {as : List α}
    (h : ∀ a ∈ as, (f a).reread = f a) : (Json.ofList f as).reread = Json.ofList f as :=
  reread_arr.2 fun j hj => by
    obtain ⟨a, ha, rfl⟩ := List.mem_map.1 hj
    exact h a ha

theorem TraceOutcome.reread_toJson (o : TraceOutcome) : o.toJson.reread = o.toJson := by
  cases o <;> rfl

theorem StepTrace.reread_toJson (t : StepTrace) : t.toJson.reread = t.toJson := by
  have houtcome := t.outcome.reread_toJson
  refine reread_obj.2 fun m hm => ?_
  simp only [List.mem_cons, List.not_mem_nil, or_false] at hm
  rcases hm with rfl | rfl | rfl | rfl | rfl | rfl
  case inr.inr.inr.inr.inl => exact houtcome
  all_goals rfl

namespace Signal

/-- The signal with its payload as it is read. -/
def reread (s : Signal) : Signal := { s with payload := s.payload.reread }

theorem reread_toJson (s : Signal) : s.toJson.reread = s.reread.toJson := by
  rw [toJson_eq, toJson_eq, Json.reread, rereadMembers_filled]
  rfl

end Signal

namespace Instance

/-- The instance with the values of any kind as they are read. -/
def reread (s : Instance) : Instance :=
  { s with context := s.context.reread, delivered := s.delivered.map Signal.reread }

theorem reread_toJson (s : Instance) : s.toJson.reread = s.reread.toJson := by
  have hpending : (Json.ofList NodeId.toJson s.pending).reread = Json.ofList NodeId.toJson s.pending :=
    reread_ofList fun _ _ => rfl
  have hhistory : (Json.ofList StepTrace.toJson s.history).reread
      = Json.ofList StepTrace.toJson s.history := reread_ofList fun t _ => t.reread_toJson
  have hdelivered : (s.delivered.map Signal.toJson).map Json.reread
      = (s.delivered.map Signal.reread).map Signal.toJson := by
    cases s.delivered with
    | none => rfl
    | some signal => exact congrArg some signal.reread_toJson
  have hstr (o : Option String) : (o.map Json.str).map Json.reread = o.map Json.str := by
    cases o <;> rfl
  have hnode :
      (s.waitingNode.map NodeId.toJson).map Json.reread = s.waitingNode.map NodeId.toJson := by
    cases s.waitingNode <;> rfl
  have hdeadline : (s.deadline.map Timestamp.toJson).map Json.reread
      = s.deadline.map Timestamp.toJson := by
    cases s.deadline <;> rfl
  rw [toJson_eq, toJson_eq, Json.reread, rereadMembers_filled]
  simp only [slots, List.map_cons, List.map_nil, Option.map_some, hpending, hhistory, hdelivered,
    hstr, hnode, hdeadline, reread]
  rfl

theorem reread_eq {s : Instance} (h : s.Carries fun j => j.reread = j) : s.reread = s := by
  have hdelivered : s.delivered.map Signal.reread = s.delivered := by
    cases hd : s.delivered with
    | none => rfl
    | some signal =>
      have := h.payload signal hd
      simp only [Option.map_some, Signal.reread, this]
  rw [reread, h.context, hdelivered]

end Instance

end DurableWorkflow

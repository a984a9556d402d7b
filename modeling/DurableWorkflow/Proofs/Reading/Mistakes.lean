import DurableWorkflow.Definition
import Mathlib.Logic.Relation

/-!
# Mistakes in programs

What can be wrong with a program, said of the program alone, without any graph. A program is well
formed if every item that it is made of is sound in its place. `Program.mistakes` goes through the
calls in the order in which they are made, those in a block before the block is closed, and tells
what is wrong at each; there is nothing to tell exactly of the well-formed programs
(`Program.mistakes_eq_nil_iff`).
-/

namespace DurableWorkflow

variable {C H : Type}

/-! ### Well-formed programs -/

namespace Arm

def side : Arm C H → Bool
  | whenTrue _ => true
  | whenFalse _ => false

def items : Arm C H → List (Item C H)
  | whenTrue items | whenFalse items => items

end Arm

/-- An item in its place, which is in a parallel block or not. -/
abbrev Placed (C H : Type) := Bool × Item C H

/-- One item stands directly in another one. -/
inductive Placed.Inside : Placed C H → Placed C H → Prop
  | arm {inParallel : Bool} {holds : Predicate C} {arms : List (Arm C H)} {arm : Arm C H}
    {item : Item C H} (harm : arm ∈ arms) (hitem : item ∈ arm.items) :
    Inside (inParallel, item) (inParallel, .choice holds arms)
  | single {inParallel : Bool} {branches : List (Branch C H)} {s : Step C H}
    (hs : .single s ∈ branches) : Inside (true, .step s) (inParallel, .parallel branches)
  | branch {inParallel : Bool} {branches : List (Branch C H)} {items : List (Item C H)}
    {item : Item C H} (hitems : .chain items ∈ branches) (hitem : item ∈ items) :
    Inside (true, item) (inParallel, .parallel branches)
  | sequence {inParallel : Bool} {items : List (Item C H)} {item : Item C H} (hitem : item ∈ items) :
    Inside (inParallel, item) (inParallel, .sequence items)

section

variable (registry : Registry C H)

/-- The item has no mistake of its own: a step that may wait for a signal is in no parallel block, a
step is registered, a choice says each side at most once, and blocks and branches are not empty. -/
def Placed.Sound : Placed C H → Prop
  | (inParallel, .step s) => inParallel = true → s.maySuspend = false
  | (inParallel, .registered type) =>
    ∃ s, registry.resolve type = some s ∧ (inParallel = true → s.maySuspend = false)
  | (_, .delay _) => True
  | (_, .choice _ arms) => ∀ side, arms.countP (·.side == side) ≤ 1
  | (_, .parallel branches) => branches ≠ [] ∧ .chain [] ∉ branches
  | (_, .sequence items) => items ≠ []

/-- The item and all that is in it, at whatever depth, are sound. -/
def Placed.Clean (x : Placed C H) : Prop :=
  ∀ y, Relation.ReflTransGen Placed.Inside y x → y.Sound registry

/-- 1 to 128 characters out of these. -/
structure IsId (id : String) : Prop where
  length : 1 ≤ id.length ∧ id.length ≤ 128
  chars : ∀ c ∈ id.toList, 'A' ≤ c ∧ c ≤ 'Z' ∨ 'a' ≤ c ∧ c ≤ 'z' ∨ '0' ≤ c ∧ c ≤ '9' ∨
    c = '_' ∨ c = '.' ∨ c = '-'

/-- Positive, and at most 30 days. -/
def IsLimit (limit : Nanos) : Prop := 0 < limit ∧ limit ≤ Nanos.ofSeconds (30 * 24 * 60 * 60)

structure Program.WellFormed (p : Program C H) : Prop where
  id : IsId p.id
  version : ∃ v, Version.parse p.version = .ok v
  limits : ∀ limit, .bound limit ∈ p.calls → IsLimit limit
  /-- It is started once, and nothing is added before. -/
  started : ∃ before s after, p.calls = before ++ .start s :: after ∧
    (∀ call ∈ before, ∃ limit, call = .bound limit) ∧ ∀ s', .start s' ∉ after
  items : ∀ item, .append item ∈ p.calls → Placed.Clean registry (false, item)

/-! ### Mistakes in order -/

/-- What is wrong with a step in such a place. -/
def Step.mistakes (inParallel : Bool) (s : Step C H) : List ConfigError :=
  if inParallel && s.maySuspend then [.suspendInParallel s.name] else []

mutual

/-- What is wrong with an item, and before that with what is in it. -/
def Item.mistakes (inParallel : Bool) : Item C H → List ConfigError
  | .step s => s.mistakes inParallel
  | .registered type =>
    match registry.resolve type with
    | some s => s.mistakes inParallel
    | none => [.unresolvedStep type]
  | .delay _ => []
  | .choice _ arms => armsMistakes inParallel false false arms
  | .parallel branches =>
    branchesMistakes branches ++ if branches.isEmpty then [.emptyParallel] else []
  | .sequence items =>
    itemsMistakes inParallel items ++ if items.isEmpty then [.emptySequence] else []

def itemsMistakes (inParallel : Bool) : List (Item C H) → List ConfigError
  | [] => []
  | item :: items => item.mistakes inParallel ++ itemsMistakes inParallel items

/-- `t` and `e` tell which sides have been said before. What is said of a side again is not looked
into. -/
def armsMistakes (inParallel t e : Bool) : List (Arm C H) → List ConfigError
  | [] => []
  | .whenTrue items :: arms =>
    (if t then [.armAlreadyConfigured true] else itemsMistakes inParallel items) ++
      armsMistakes inParallel true e arms
  | .whenFalse items :: arms =>
    (if e then [.armAlreadyConfigured false] else itemsMistakes inParallel items) ++
      armsMistakes inParallel t true arms

def branchesMistakes : List (Branch C H) → List ConfigError
  | [] => []
  | .single s :: branches => s.mistakes true ++ branchesMistakes branches
  | .chain items :: branches =>
    itemsMistakes true items ++ (if items.isEmpty then [.emptyBranch] else []) ++
      branchesMistakes branches

end

def Call.isStart : Call C H → Bool
  | .start _ => true
  | .append _ | .bound _ => false

def Call.mistakes (started : Bool) : Call C H → List ConfigError
  | .start s => if started then [.rootAlreadySet] else s.mistakes false
  | .append item => if started then item.mistakes registry false else [.notStarted item.noun]
  | .bound limit =>
    if limit = 0 then [.zeroLimit] else if limit > maxLimit then [.longLimit limit] else []

def callsMistakes (started : Bool) : List (Call C H) → List ConfigError
  | [] => []
  | call :: calls =>
    call.mistakes registry started ++ callsMistakes (started || call.isStart) calls

/-- What is wrong with the id of a program and with its version. -/
def Program.titleMistakes (p : Program C H) : List ConfigError :=
  (if isValidId p.id then [] else [.invalidId p.id]) ++
    match Version.parse p.version with
    | .ok _ => []
    | .error fault => [.invalidVersion p.version fault]

/-- What is wrong with a program, in order. That it is never started is told last of all. -/
def Program.mistakes (p : Program C H) : List ConfigError :=
  p.titleMistakes ++ callsMistakes registry false p.calls ++
    if p.calls.any Call.isStart then [] else [.missingRoot]

/-! ### What is told -/

/-- A call can be wrong like this. -/
def ConfigError.isOfCall : ConfigError → Bool
  | missingRoot | link .. => false
  | _ => true

theorem Step.isOfCall_of_mem {inParallel : Bool} {s : Step C H} :
    ∀ e ∈ s.mistakes inParallel, e.isOfCall = true := by
  unfold mistakes
  split <;> simp [ConfigError.isOfCall]

mutual

theorem Item.isOfCall_of_mem (inParallel : Bool) : (item : Item C H) →
    ∀ e ∈ item.mistakes registry inParallel, e.isOfCall = true
  | .step s => by
    rw [Item.mistakes]
    exact Step.isOfCall_of_mem
  | .registered type => by
    rw [Item.mistakes]
    cases registry.resolve type with
    | none => simp [ConfigError.isOfCall]
    | some s => exact Step.isOfCall_of_mem
  | .delay d => by
    simp [Item.mistakes]
  | .choice holds arms => by
    rw [Item.mistakes]
    exact isOfCall_of_arms inParallel arms false false
  | .parallel branches => by
    rw [Item.mistakes, List.forall_mem_append]
    refine ⟨isOfCall_of_branches branches, ?_⟩
    split <;> simp [ConfigError.isOfCall]
  | .sequence items => by
    rw [Item.mistakes, List.forall_mem_append]
    refine ⟨isOfCall_of_items inParallel items, ?_⟩
    split <;> simp [ConfigError.isOfCall]

theorem isOfCall_of_items (inParallel : Bool) : (items : List (Item C H)) →
    ∀ e ∈ itemsMistakes registry inParallel items, e.isOfCall = true
  | [] => by
    simp [itemsMistakes]
  | item :: items => by
    rw [itemsMistakes, List.forall_mem_append]
    exact ⟨item.isOfCall_of_mem inParallel, isOfCall_of_items inParallel items⟩

theorem isOfCall_of_arms (inParallel : Bool) : (arms : List (Arm C H)) → (t e : Bool) →
    ∀ e' ∈ armsMistakes registry inParallel t e arms, e'.isOfCall = true
  | [], t, e => by
    simp [armsMistakes]
  | .whenTrue items :: arms, t, e => by
    rw [armsMistakes, List.forall_mem_append]
    refine ⟨?_, isOfCall_of_arms inParallel arms true e⟩
    split
    · simp [ConfigError.isOfCall]
    · exact isOfCall_of_items inParallel items
  | .whenFalse items :: arms, t, e => by
    rw [armsMistakes, List.forall_mem_append]
    refine ⟨?_, isOfCall_of_arms inParallel arms t true⟩
    split
    · simp [ConfigError.isOfCall]
    · exact isOfCall_of_items inParallel items

theorem isOfCall_of_branches : (branches : List (Branch C H)) →
    ∀ e ∈ branchesMistakes registry branches, e.isOfCall = true
  | [] => by
    simp [branchesMistakes]
  | .single s :: branches => by
    rw [branchesMistakes, List.forall_mem_append]
    exact ⟨Step.isOfCall_of_mem, isOfCall_of_branches branches⟩
  | .chain items :: branches => by
    rw [branchesMistakes, List.forall_mem_append, List.forall_mem_append]
    refine ⟨⟨isOfCall_of_items true items, ?_⟩, isOfCall_of_branches branches⟩
    split <;> simp [ConfigError.isOfCall]

end

theorem isOfCall_of_calls (calls : List (Call C H)) (started : Bool) :
    ∀ e ∈ callsMistakes registry started calls, e.isOfCall = true := by
  induction calls generalizing started with
  | nil => simp [callsMistakes]
  | cons call calls ih =>
    rw [callsMistakes, List.forall_mem_append]
    refine ⟨?_, ih _⟩
    cases call with
    | start s =>
      rw [Call.mistakes]
      split
      · simp [ConfigError.isOfCall]
      · exact Step.isOfCall_of_mem
    | append item =>
      rw [Call.mistakes]
      split
      · exact item.isOfCall_of_mem registry false
      · simp [ConfigError.isOfCall]
    | bound limit =>
      rw [Call.mistakes]
      split
      · simp [ConfigError.isOfCall]
      · split <;> simp [ConfigError.isOfCall]

/-- That a workflow is never started is told last, and that nodes cannot be linked is not told. -/
theorem Program.mistakes_eq (p : Program C H) : ∃ found, (∀ e ∈ found, e.isOfCall = true) ∧
    (p.mistakes registry = found ∨ p.mistakes registry = found ++ [.missingRoot]) := by
  refine ⟨p.titleMistakes ++ callsMistakes registry false p.calls, ?_, ?_⟩
  · rw [titleMistakes, List.forall_mem_append, List.forall_mem_append]
    refine ⟨⟨?_, ?_⟩, isOfCall_of_calls registry p.calls false⟩
    · split <;> simp [ConfigError.isOfCall]
    · split <;> simp [ConfigError.isOfCall]
  · rw [mistakes]
    by_cases hstarted : p.calls.any Call.isStart = true
    · exact .inl (by rw [if_pos hstarted, List.append_nil])
    · exact .inr (by rw [if_neg hstarted])

/-! ### Nothing to tell -/

theorem Placed.clean_iff {x : Placed C H} :
    x.Clean registry ↔ x.Sound registry ∧ ∀ y, Placed.Inside y x → y.Clean registry := by
  constructor
  · exact fun h => ⟨h x .refl, fun y hy z hz => h z (hz.tail hy)⟩
  · rintro ⟨hx, hinside⟩ y hy
    obtain rfl | ⟨z, hyz, hz⟩ := hy.cases_tail
    · exact hx
    · exact hinside z hz y hyz

namespace Placed

variable {P : Placed C H → Prop} {inParallel : Bool}

theorem forall_inside_choice {holds : Predicate C} {arms : List (Arm C H)} :
    (∀ y, Inside y (inParallel, .choice holds arms) → P y) ↔
      ∀ arm ∈ arms, ∀ item ∈ arm.items, P (inParallel, item) := by
  constructor
  · exact fun h arm harm item hitem => h _ (.arm harm hitem)
  · intro h y hy
    cases hy with
    | arm harm hitem => exact h _ harm _ hitem

theorem forall_inside_parallel {branches : List (Branch C H)} :
    (∀ y, Inside y (inParallel, .parallel branches) → P y) ↔
      (∀ s, .single s ∈ branches → P (true, .step s)) ∧
        ∀ items, .chain items ∈ branches → ∀ item ∈ items, P (true, item) := by
  constructor
  · exact fun h => ⟨fun s hs => h _ (.single hs), fun items hitems item hitem =>
      h _ (.branch hitems hitem)⟩
  · rintro ⟨hsingle, hchain⟩ y hy
    cases hy with
    | single hs => exact hsingle _ hs
    | branch hitems hitem => exact hchain _ hitems _ hitem

theorem forall_inside_sequence {items : List (Item C H)} :
    (∀ y, Inside y (inParallel, .sequence items) → P y) ↔
      ∀ item ∈ items, P (inParallel, item) := by
  constructor
  · exact fun h item hitem => h _ (.sequence hitem)
  · intro h y hy
    cases hy with
    | sequence hitem => exact h _ hitem

end Placed

theorem Step.mistakes_eq_nil_iff {inParallel : Bool} {s : Step C H} :
    s.mistakes inParallel = [] ↔ (inParallel = true → s.maySuspend = false) := by
  unfold mistakes
  cases inParallel <;> simp

theorem Placed.clean_step_iff {inParallel : Bool} {s : Step C H} :
    Placed.Clean registry (inParallel, .step s) ↔ s.mistakes inParallel = [] := by
  rw [clean_iff, Step.mistakes_eq_nil_iff]
  exact and_iff_left fun y hy => nomatch hy

mutual

theorem Item.mistakes_eq_nil_iff (inParallel : Bool) : (item : Item C H) →
    (item.mistakes registry inParallel = [] ↔ Placed.Clean registry (inParallel, item))
  | .step s => by
    rw [Item.mistakes, Placed.clean_step_iff]
  | .registered type => by
    rw [Item.mistakes, Placed.clean_iff, and_iff_left (fun y hy => nomatch hy)]
    cases h : registry.resolve type with
    | none => simp [Placed.Sound, h]
    | some s => simp [Placed.Sound, h, Step.mistakes_eq_nil_iff]
  | .delay d => by
    rw [Item.mistakes, Placed.clean_iff, and_iff_left (fun y hy => nomatch hy)]
    simp [Placed.Sound]
  | .choice holds arms => by
    rw [Item.mistakes, Placed.clean_iff, armsMistakes_eq_nil_iff inParallel arms false false,
      Placed.forall_inside_choice, ← and_assoc]
    refine and_congr_left fun _ => ?_
    simp only [Placed.Sound, Bool.forall_bool, Bool.toNat_false, Nat.add_zero]
    exact and_comm
  | .parallel branches => by
    rw [Item.mistakes, Placed.clean_iff, List.append_eq_nil_iff, branchesMistakes_eq_nil_iff branches,
      Placed.forall_inside_parallel]
    cases branches with
    | nil => simp [Placed.Sound]
    | cons branch branches => simp [Placed.Sound]
  | .sequence items => by
    rw [Item.mistakes, Placed.clean_iff, List.append_eq_nil_iff,
      itemsMistakes_eq_nil_iff inParallel items, Placed.forall_inside_sequence]
    cases items with
    | nil => simp [Placed.Sound]
    | cons item items => simp [Placed.Sound]

theorem itemsMistakes_eq_nil_iff (inParallel : Bool) : (items : List (Item C H)) →
    (itemsMistakes registry inParallel items = [] ↔
      ∀ item ∈ items, Placed.Clean registry (inParallel, item))
  | [] => by
    simp [itemsMistakes]
  | item :: items => by
    rw [itemsMistakes, List.append_eq_nil_iff, item.mistakes_eq_nil_iff inParallel,
      itemsMistakes_eq_nil_iff inParallel items, List.forall_mem_cons]

theorem armsMistakes_eq_nil_iff (inParallel : Bool) : (arms : List (Arm C H)) → (t e : Bool) →
    (armsMistakes registry inParallel t e arms = [] ↔
      arms.countP (·.side == true) + t.toNat ≤ 1 ∧ arms.countP (·.side == false) + e.toNat ≤ 1 ∧
        ∀ arm ∈ arms, ∀ item ∈ arm.items, Placed.Clean registry (inParallel, item))
  | [], t, e => by
    simp [armsMistakes, Bool.toNat_le]
  | .whenTrue items :: arms, t, e => by
    rw [armsMistakes, List.append_eq_nil_iff, armsMistakes_eq_nil_iff inParallel arms true e]
    have hitems := itemsMistakes_eq_nil_iff inParallel items
    cases t with
    | true => simp [Arm.side]
    | false => simp [Arm.side, Arm.items, hitems, and_left_comm]
  | .whenFalse items :: arms, t, e => by
    rw [armsMistakes, List.append_eq_nil_iff, armsMistakes_eq_nil_iff inParallel arms t true]
    have hitems := itemsMistakes_eq_nil_iff inParallel items
    cases e with
    | true => simp [Arm.side]
    | false => simp [Arm.side, Arm.items, hitems, and_left_comm]

theorem branchesMistakes_eq_nil_iff : (branches : List (Branch C H)) →
    (branchesMistakes registry branches = [] ↔ .chain [] ∉ branches ∧
      (∀ s, .single s ∈ branches → Placed.Clean registry (true, .step s)) ∧
      ∀ items, .chain items ∈ branches → ∀ item ∈ items, Placed.Clean registry (true, item))
  | [] => by
    simp [branchesMistakes]
  | .single s :: branches => by
    rw [branchesMistakes, List.append_eq_nil_iff, branchesMistakes_eq_nil_iff branches,
      ← Placed.clean_step_iff registry]
    simp [and_left_comm, and_assoc]
  | .chain items :: branches => by
    rw [branchesMistakes, List.append_eq_nil_iff, List.append_eq_nil_iff,
      branchesMistakes_eq_nil_iff branches, itemsMistakes_eq_nil_iff true items]
    cases items with
    | nil => simp
    | cons item items => simp [and_left_comm, and_assoc]

end

theorem Call.mistakes_bound_eq_nil_iff {started : Bool} {limit : Nanos} :
    (Call.bound limit : Call C H).mistakes registry started = [] ↔ IsLimit limit := by
  rw [Call.mistakes]
  split
  · next hzero => simp [hzero, IsLimit]
  · next hzero =>
    split
    · next hlong => exact iff_of_false (by simp) fun h => Nat.not_lt.2 h.2 hlong
    · next hlong => exact iff_of_true rfl ⟨Nat.pos_of_ne_zero hzero, Nat.not_lt.1 hlong⟩

/-- Once started, a workflow is not started again. -/
theorem callsMistakes_started_eq_nil_iff {calls : List (Call C H)} :
    callsMistakes registry true calls = [] ↔ (∀ s, .start s ∉ calls) ∧
      (∀ limit, .bound limit ∈ calls → IsLimit limit) ∧
      ∀ item, .append item ∈ calls → Placed.Clean registry (false, item) := by
  induction calls with
  | nil => simp [callsMistakes]
  | cons call calls ih =>
    rw [callsMistakes, List.append_eq_nil_iff, Bool.true_or, ih]
    cases call with
    | start s =>
      constructor
      · rintro ⟨hnone, -⟩
        simp [Call.mistakes] at hnone
      · rintro ⟨hnever, -⟩
        exact absurd (List.mem_cons_self ..) (hnever s)
    | append item =>
      rw [Call.mistakes, if_pos rfl, item.mistakes_eq_nil_iff registry false]
      simp [and_left_comm]
    | bound limit =>
      rw [Call.mistakes_bound_eq_nil_iff]
      simp [and_left_comm, and_assoc]

/-- Until it is started, nothing is added to it. -/
theorem callsMistakes_eq_nil_iff {calls : List (Call C H)} (h : calls.any Call.isStart) :
    callsMistakes registry false calls = [] ↔ ∃ before s after, calls = before ++ .start s :: after ∧
      (∀ call ∈ before, ∃ limit, call = .bound limit ∧ IsLimit limit) ∧
      callsMistakes registry true after = [] := by
  induction calls with
  | nil => simp at h
  | cons call calls ih =>
    rw [callsMistakes, List.append_eq_nil_iff, Bool.false_or]
    cases call with
    | start s =>
      constructor
      · exact fun hcalls => ⟨[], s, calls, rfl, by simp, hcalls.2⟩
      · rintro ⟨before, s', after, heq, hbefore, hafter⟩
        cases before with
        | nil =>
          cases heq
          exact ⟨by simp [Call.mistakes, Step.mistakes], hafter⟩
        | cons call before =>
          cases heq
          simp at hbefore
    | append item =>
      constructor
      · rintro ⟨hnone, -⟩
        simp [Call.mistakes] at hnone
      · rintro ⟨before, s', after, heq, hbefore, -⟩
        cases before with
        | nil => cases heq
        | cons call before =>
          cases heq
          simp at hbefore
    | bound limit =>
      have hrest := ih (by simpa [Call.isStart] using h)
      rw [Call.mistakes_bound_eq_nil_iff, Call.isStart, hrest]
      constructor
      · rintro ⟨hlimit, before, s, after, rfl, hbefore, hafter⟩
        exact ⟨.bound limit :: before, s, after, rfl,
          List.forall_mem_cons.2 ⟨⟨limit, rfl, hlimit⟩, hbefore⟩, hafter⟩
      · rintro ⟨before, s, after, heq, hbefore, hafter⟩
        cases before with
        | nil => cases heq
        | cons call before =>
          cases heq
          obtain ⟨⟨_, heq, hlimit⟩, hbefore⟩ := List.forall_mem_cons.1 hbefore
          cases heq
          exact ⟨hlimit, before, s, after, rfl, hbefore, hafter⟩

theorem isIdChar_iff (c : Char) : (c.isAlphanum || c == '_' || c == '.' || c == '-') = true ↔
    'A' ≤ c ∧ c ≤ 'Z' ∨ 'a' ≤ c ∧ c ≤ 'z' ∨ '0' ≤ c ∧ c ≤ '9' ∨ c = '_' ∨ c = '.' ∨ c = '-' := by
  have halpha : c.isAlpha = true ↔ 'A' ≤ c ∧ c ≤ 'Z' ∨ 'a' ≤ c ∧ c ≤ 'z' := by
    show (decide (c.val ≥ 'A'.val ∧ c.val ≤ 'Z'.val) ||
      decide (c.val ≥ 'a'.val) && decide (c.val ≤ 'z'.val)) = true ↔ _
    simp [Char.le_def]
  simp [Char.isAlphanum, halpha, Char.isDigit, or_assoc, Char.le_def]

/-- A text of characters that take one byte each. -/
theorem utf8ByteSize_of_chars {s : String} (h : ∀ c ∈ s.toList, c.utf8Size = 1) :
    s.utf8ByteSize = s.length := by
  have hlist (l : List Char) (hl : ∀ c ∈ l, c.utf8Size = 1) :
      (String.ofList l).utf8ByteSize = l.length := by
    induction l with
    | nil => rfl
    | cons c l ih =>
      obtain ⟨hc, hl⟩ := List.forall_mem_cons.1 hl
      have hcons : String.ofList (c :: l) = String.singleton c ++ String.ofList l := by simp
      rw [hcons, String.utf8ByteSize_append, String.utf8ByteSize_singleton, ih hl, hc,
        List.length_cons, Nat.add_comm]
  have hs := hlist s.toList h
  rwa [String.ofList_toList, String.length_toList] at hs

theorem isValidId_iff (id : String) : isValidId id = true ↔ IsId id := by
  have hempty : id.isEmpty = false ↔ 1 ≤ id.length := by
    rw [← String.length_toList, Nat.succ_le_iff, List.length_pos_iff, Bool.eq_false_iff, Ne,
      String.isEmpty_iff, Ne, String.toList_eq_nil_iff]
  have hsize (hchars : ∀ c ∈ id.toList, (c.isAlphanum || c == '_' || c == '.' || c == '-') = true) :
      id.utf8ByteSize = id.length := by
    refine utf8ByteSize_of_chars fun c hc => Char.utf8Size_eq_one_iff.2 ?_
    obtain ⟨-, hz⟩ | ⟨-, hz⟩ | ⟨-, h9⟩ | rfl | rfl | rfl := (isIdChar_iff c).1 (hchars c hc)
    · exact UInt32.le_trans hz (by decide)
    · exact UInt32.le_trans hz (by decide)
    · exact UInt32.le_trans h9 (by decide)
    all_goals decide
  simp only [isValidId, Bool.and_eq_true, Bool.not_eq_true', decide_eq_true_eq, List.all_eq_true]
  constructor
  · rintro ⟨⟨hne, hlength⟩, hchars⟩
    rw [hsize hchars] at hlength
    exact ⟨⟨hempty.1 hne, hlength⟩, fun c hc => (isIdChar_iff c).1 (hchars c hc)⟩
  · rintro ⟨⟨hne, hlength⟩, hchars⟩
    have hchars := fun c hc => (isIdChar_iff c).2 (hchars c hc)
    exact ⟨⟨hempty.2 hne, (hsize hchars) ▸ hlength⟩, hchars⟩

theorem Program.titleMistakes_eq_nil_iff (p : Program C H) :
    p.titleMistakes = [] ↔ IsId p.id ∧ ∃ v, Version.parse p.version = .ok v := by
  rw [titleMistakes, List.append_eq_nil_iff, ← isValidId_iff]
  refine and_congr (by simp) ?_
  cases Version.parse p.version <;> simp

/-- There is nothing to tell of the well-formed programs, and of no others. -/
theorem Program.mistakes_eq_nil_iff (p : Program C H) :
    p.mistakes registry = [] ↔ p.WellFormed registry := by
  have hroot : (if p.calls.any Call.isStart then [] else [ConfigError.missingRoot]) = [] ↔
      p.calls.any Call.isStart = true := by
    simp
  rw [mistakes, List.append_eq_nil_iff, List.append_eq_nil_iff, titleMistakes_eq_nil_iff, hroot]
  constructor
  · rintro ⟨⟨⟨hid, hversion⟩, hcalls⟩, hroot⟩
    obtain ⟨before, s, after, heq, hbefore, hafter⟩ :=
      (callsMistakes_eq_nil_iff registry hroot).1 hcalls
    obtain ⟨honce, hlimits, hitems⟩ := (callsMistakes_started_eq_nil_iff registry).1 hafter
    refine ⟨hid, hversion, fun limit hlimit => ?_,
      ⟨before, s, after, heq, fun call hcall => ?_, honce⟩, fun item hitem => ?_⟩
    · rw [heq, List.mem_append, List.mem_cons] at hlimit
      obtain hlimit | hlimit | hlimit := hlimit
      · obtain ⟨limit', heq, hallowed⟩ := hbefore _ hlimit
        cases heq
        exact hallowed
      · cases hlimit
      · exact hlimits limit hlimit
    · obtain ⟨limit, heq, -⟩ := hbefore call hcall
      exact ⟨limit, heq⟩
    · rw [heq, List.mem_append, List.mem_cons] at hitem
      obtain hitem | hitem | hitem := hitem
      · obtain ⟨limit', heq, -⟩ := hbefore _ hitem
        cases heq
      · cases hitem
      · exact hitems item hitem
  · rintro ⟨hid, hversion, hlimits, ⟨before, s, after, heq, hbefore, honce⟩, hitems⟩
    have hroot : p.calls.any Call.isStart = true := by
      rw [heq]
      simp [Call.isStart]
    refine ⟨⟨⟨hid, hversion⟩, ?_⟩, hroot⟩
    refine (callsMistakes_eq_nil_iff registry hroot).2 ⟨before, s, after, heq, fun call hcall => ?_, ?_⟩
    · obtain ⟨limit, rfl⟩ := hbefore call hcall
      exact ⟨limit, rfl, hlimits limit (by simp [heq, hcall])⟩
    · refine (callsMistakes_started_eq_nil_iff registry).2 ⟨honce, fun limit hlimit => ?_,
        fun item hitem => ?_⟩
      · exact hlimits limit (by simp [heq, hlimit])
      · exact hitems item (by simp [heq, hitem])

end

end DurableWorkflow

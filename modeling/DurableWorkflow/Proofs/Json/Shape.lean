import DurableWorkflow.Json.Value
import DurableWorkflow.Proofs.Codec.Basic

/-!
# Shapes of JSON values

What holds of a value and of every value inside it: that objects are in order, that no object stands
for the text of another value, and that integers fit 64 bits. Beside it, how deep a value nests.
-/

namespace DurableWorkflow.Json

/-- From the items and members to the whole. -/
theorem inductionOn {motive : Json → Prop} (null : motive .null) (bool : ∀ b, motive (.bool b))
    (int : ∀ n, motive (.int n)) (float : ∀ x, motive (.float x)) (str : ∀ s, motive (.str s))
    (unreadable : motive .unreadable)
    (arr : ∀ items, (∀ j ∈ items, motive j) → motive (.arr items))
    (obj : ∀ members, (∀ m ∈ members, motive m.2) → motive (.obj members)) : ∀ j, motive j
  | .null => null
  | .bool b => bool b
  | .int n => int n
  | .float x => float x
  | .str s => str s
  | .unreadable => unreadable
  | .arr items => arr items fun j _ =>
    inductionOn null bool int float str unreadable arr obj j
  | .obj members => obj members fun m _ =>
    inductionOn null bool int float str unreadable arr obj m.2
decreasing_by
  · simp only [Json.arr.sizeOf_spec]
    have := List.sizeOf_lt_of_mem ‹_›
    omega
  · simp only [Json.obj.sizeOf_spec]
    have := List.sizeOf_lt_of_mem ‹m ∈ members›
    have : sizeOf m.2 < sizeOf m := by
      cases m
      simp only [Prod.mk.sizeOf_spec]
      omega
    omega

/-! ### Every value inside -/

mutual

/-- Does `p` hold of the value and of every value inside it? -/
def every (p : Json → Bool) : Json → Bool
  | .arr items => p (.arr items) && everyItem p items
  | .obj members => p (.obj members) && everyMember p members
  | j => p j

def everyItem (p : Json → Bool) : List Json → Bool
  | [] => true
  | j :: js => every p j && everyItem p js

def everyMember (p : Json → Bool) : List (String × Json) → Bool
  | [] => true
  | (_, j) :: rest => every p j && everyMember p rest

end

variable {p q : Json → Bool}

@[simp] theorem everyItem_iff {items : List Json} :
    everyItem p items = true ↔ ∀ j ∈ items, every p j = true := by
  induction items with
  | nil => simp [everyItem]
  | cons j js ih => simp [everyItem, ih]

@[simp] theorem everyMember_iff {members : List (String × Json)} :
    everyMember p members = true ↔ ∀ m ∈ members, every p m.2 = true := by
  induction members with
  | nil => simp [everyMember]
  | cons m rest ih => simp [everyMember, ih]

theorem every_arr {items : List Json} :
    every p (.arr items) = true ↔ p (.arr items) = true ∧ ∀ j ∈ items, every p j = true := by
  simp [every]

theorem every_obj {members : List (String × Json)} :
    every p (.obj members) = true ↔
      p (.obj members) = true ∧ ∀ m ∈ members, every p m.2 = true := by
  simp [every]

theorem every_self {j : Json} (h : every p j = true) : p j = true := by
  cases j with
  | arr => exact (every_arr.1 h).1
  | obj => exact (every_obj.1 h).1
  | _ => exact h

theorem every_mono (h : ∀ j, p j = true → q j = true) {j : Json} (hj : every p j = true) :
    every q j = true := by
  induction j using inductionOn with
  | arr items ih =>
    rw [every_arr] at hj ⊢
    exact ⟨h _ hj.1, fun j hmem => ih j hmem (hj.2 j hmem)⟩
  | obj members ih =>
    rw [every_obj] at hj ⊢
    exact ⟨h _ hj.1, fun m hmem => ih m hmem (hj.2 m hmem)⟩
  | _ => exact h _ hj

/-! ### Order, reserved names, integers -/

/-- The names of the members, each smaller than the next. -/
def Ascending (members : List (String × Json)) : Prop := members.Pairwise (·.1 < ·.1)

instance (members : List (String × Json)) : Decidable (Ascending members) :=
  inferInstanceAs (Decidable (List.Pairwise _ _))

/-- Can be taken, an object with its members in order. -/
def isTidy : Json → Bool
  | .unreadable => false
  | .obj members => decide (Ascending members)
  | _ => true

/-- Not an object that begins with the reserved name. -/
def isOwn : Json → Bool
  | .obj ((name, _) :: _) => name != embeddedName
  | _ => true

/-- Not an integer beyond 64 bits, with or without a sign. -/
def isNarrow : Json → Bool
  | .int n => -(twoTo 63 : Int) ≤ n && n < twoTo 64
  | _ => true

/-- Objects are in order and everything can be taken. -/
def Ordered (j : Json) : Prop := every isTidy j = true

/-- No object inside stands for the text of another value. -/
def Own (j : Json) : Prop := every isOwn j = true

/-- Integers fit 64 bits. -/
def Narrow (j : Json) : Prop := every isNarrow j = true

instance (j : Json) : Decidable (Ordered j) := inferInstanceAs (Decidable (_ = true))
instance (j : Json) : Decidable (Own j) := inferInstanceAs (Decidable (_ = true))
instance (j : Json) : Decidable (Narrow j) := inferInstanceAs (Decidable (_ = true))

/-! ### Depth -/

mutual

/-- How deep arrays and objects nest. -/
def depth : Json → Nat
  | .arr items => itemsDepth items + 1
  | .obj members => membersDepth members + 1
  | _ => 0

def itemsDepth : List Json → Nat
  | [] => 0
  | j :: js => max (depth j) (itemsDepth js)

def membersDepth : List (String × Json) → Nat
  | [] => 0
  | (_, j) :: rest => max (depth j) (membersDepth rest)

end

theorem itemsDepth_le {items : List Json} {n : Nat} :
    itemsDepth items ≤ n ↔ ∀ j ∈ items, depth j ≤ n := by
  induction items with
  | nil => simp [itemsDepth]
  | cons j js ih => simp only [itemsDepth, ih, Nat.max_le, List.forall_mem_cons]

theorem membersDepth_le {members : List (String × Json)} {n : Nat} :
    membersDepth members ≤ n ↔ ∀ m ∈ members, depth m.2 ≤ n := by
  induction members with
  | nil => simp [membersDepth]
  | cons m rest ih => simp only [membersDepth, ih, Nat.max_le, List.forall_mem_cons]

/-!
## Values that are taken as they are

A value in order that stands for itself is taken as it is. Whatever value is taken is in order, and
its integers are as narrow as those it was made from.
-/

/-! ### Members in order -/

theorem insertMember_last {name : String} {value : Json} {acc : List (String × Json)}
    (h : ∀ m ∈ acc, m.1 < name) : insertMember name value acc = acc ++ [(name, value)] := by
  induction acc with
  | nil => rfl
  | cons m rest ih =>
    have hm : m.1 < name := h m (by simp)
    have hne : name ≠ m.1 := fun he => String.lt_irrefl _ (he ▸ hm)
    rw [insertMember, if_neg hne, if_neg (String.lt_asymm hm), ih fun m hmem => h m (by simp [hmem])]
    rfl

theorem mem_insertMember {name : String} {value : Json} {acc : List (String × Json)}
    {m : String × Json} (h : m ∈ insertMember name value acc) : m = (name, value) ∨ m ∈ acc := by
  induction acc with
  | nil => simpa [insertMember] using h
  | cons n rest ih =>
    rw [insertMember] at h
    split at h
    · next he =>
      obtain h | h := List.mem_cons.1 h
      · exact .inl (by rw [h, he])
      · exact .inr (by simp [h])
    split at h
    · simpa using h
    · obtain h | h := List.mem_cons.1 h
      · exact .inr (by simp [h])
      · exact (ih h).imp_right fun h => by simp [h]

theorem Ascending.insertMember {name : String} {value : Json} {acc : List (String × Json)}
    (h : Ascending acc) : Ascending (insertMember name value acc) := by
  induction acc with
  | nil => exact List.pairwise_singleton ..
  | cons n rest ih =>
    obtain ⟨hn, hrest⟩ := List.pairwise_cons.1 h
    rw [Json.insertMember]
    split
    · exact List.pairwise_cons.2 ⟨hn, hrest⟩
    next hne =>
    split
    · next hlt =>
      refine List.pairwise_cons.2 ⟨fun m hm => ?_, h⟩
      obtain rfl | hm := List.mem_cons.1 hm
      · exact hlt
      · exact String.lt_trans hlt (hn m hm)
    next hnlt =>
    refine List.pairwise_cons.2 ⟨fun m hm => ?_, ih hrest⟩
    obtain rfl | hm := mem_insertMember hm
    · refine Decidable.byContradiction fun hge => hne ?_
      exact String.le_antisymm (String.not_lt.1 hge) (String.not_lt.1 hnlt)
    · exact hn m hm

/-! ### Values that are in order already -/

theorem settled_obj {unfold : String → Except String Json} {name : String} {j : Json}
    {rest : List (String × Json)} (h : name ≠ embeddedName) :
    settled unfold (.obj ((name, j) :: rest))
      = (settledMembers unfold ((name, j) :: rest) []).map .obj := by
  cases j <;> simp only [settled, if_neg h]

/-- An embedded text is unfolded, or refused. -/
theorem settled_embedded {unfold : String → Except String Json} {j j' : Json}
    {rest : List (String × Json)} (h : settled unfold (.obj ((embeddedName, j) :: rest)) = .ok j') :
    ∃ text, unfold text = .ok j' := by
  cases j with
  | str text =>
    simp only [settled, if_true] at h
    obtain ⟨j, hj, h⟩ := ok_of_bind h
    split at h
    · cases h
      exact ⟨text, hj⟩
    · cases h
  | _ => simp [settled] at h

mutual

theorem settled_eq (unfold : String → Except String Json) :
    ∀ {j : Json}, Ordered j → Own j → j.settled unfold = .ok j
  | .arr items, ho, hw => by
    simp [settled, settledItems_eq unfold (every_arr.1 ho).2 (every_arr.1 hw).2, Except.map]
  | .obj [], _, _ => rfl
  | .obj ((name, j) :: rest), ho, hw => by
    have hasc : Ascending ((name, j) :: rest) := by simpa [isTidy] using (every_obj.1 ho).1
    have hname : name ≠ embeddedName := by simpa [isOwn] using (every_obj.1 hw).1
    have hmembers := settledMembers_eq unfold (every_obj.1 ho).2 (every_obj.1 hw).2
      (show Ascending ([] ++ (name, j) :: rest) from hasc)
    rw [settled_obj hname, hmembers]
    rfl
  | .null, _, _ | .bool _, _, _ | .int _, _, _ | .float _, _, _ | .str _, _, _ => rfl

theorem settledItems_eq (unfold : String → Except String Json) :
    ∀ {items : List Json}, (∀ j ∈ items, Ordered j) → (∀ j ∈ items, Own j) →
      settledItems unfold items = .ok items
  | [], _, _ => rfl
  | j :: js, ho, hw => by
    rw [settledItems, settled_eq unfold (ho j (by simp)) (hw j (by simp)),
      settledItems_eq unfold (fun j hj => ho j (by simp [hj])) (fun j hj => hw j (by simp [hj]))]
    rfl

theorem settledMembers_eq (unfold : String → Except String Json) :
    ∀ {members acc : List (String × Json)}, (∀ m ∈ members, Ordered m.2) →
      (∀ m ∈ members, Own m.2) → Ascending (acc ++ members) →
      settledMembers unfold members acc = .ok (acc ++ members)
  | [], acc, _, _, _ => by simp [settledMembers]
  | (n, j) :: rest, acc, ho, hw, hasc => by
    have hlast : ∀ m ∈ acc, m.1 < n := fun m hm =>
      (List.pairwise_append.1 hasc).2.2 m hm (n, j) (by simp)
    rw [settledMembers, settled_eq unfold (ho (n, j) (by simp)) (hw (n, j) (by simp))]
    simp only [bind, Except.bind, insertMember_last hlast]
    rw [settledMembers_eq unfold (fun m hm => ho m (by simp [hm])) (fun m hm => hw m (by simp [hm]))
      (by simpa using hasc)]
    simp

end

/-- A value in order that stands for itself is taken as it is. -/
theorem toValue?_eq {j : Json} (ho : Ordered j) (hw : Own j) : j.toValue? = some j := by
  rw [toValue?, maxEmbedding, takeValue, settled_eq _ ho hw]
  rfl

/-! ### Values that are taken -/

/-- `p` asked only of values that hold no others. -/
def atLeaves (p : Json → Bool) : Json → Bool
  | .arr _ | .obj _ | .unreadable => true
  | j => p j

section

variable {p : Json → Bool} {unfold : String → Except String Json}

mutual

theorem every_of_settled (harr : ∀ items, p (.arr items) = true)
    (hobj : ∀ members, Ascending members → p (.obj members) = true)
    (hunfold : ∀ {text j}, unfold text = .ok j → every p j = true) :
    ∀ {j j' : Json}, every (atLeaves p) j = true → j.settled unfold = .ok j' → every p j' = true
  | .arr items, j', hp, h => by
    cases hi : settledItems unfold items with
    | error e => simp [settled, hi, Except.map] at h
    | ok items' =>
      simp only [settled, hi, Except.map, Except.ok.injEq] at h
      subst h
      exact every_arr.2 ⟨harr _, every_of_settledItems harr hobj hunfold (every_arr.1 hp).2 hi⟩
  | .obj [], j', _, h => by
    cases h
    exact every_obj.2 ⟨hobj _ List.Pairwise.nil, by simp⟩
  | .obj ((name, j) :: rest), j', hp, h => by
    by_cases hname : name = embeddedName
    · subst hname
      obtain ⟨text, hj⟩ := settled_embedded h
      exact hunfold hj
    · rw [settled_obj hname] at h
      cases hm : settledMembers unfold ((name, j) :: rest) [] with
      | error e => simp [hm, Except.map] at h
      | ok members =>
        simp only [hm, Except.map, Except.ok.injEq] at h
        subst h
        obtain ⟨hasc, hall⟩ := every_of_settledMembers harr hobj hunfold (every_obj.1 hp).2
          List.Pairwise.nil (by simp) hm
        exact every_obj.2 ⟨hobj _ hasc, hall⟩
  | .null, j', hp, h | .bool _, j', hp, h | .int _, j', hp, h | .float _, j', hp, h
  | .str _, j', hp, h => by
    cases h
    exact hp

theorem every_of_settledItems (harr : ∀ items, p (.arr items) = true)
    (hobj : ∀ members, Ascending members → p (.obj members) = true)
    (hunfold : ∀ {text j}, unfold text = .ok j → every p j = true) :
    ∀ {items items' : List Json}, (∀ j ∈ items, every (atLeaves p) j = true) →
      settledItems unfold items = .ok items' → ∀ j ∈ items', every p j = true
  | [], items', _, h => by
    cases h
    simp
  | j :: js, items', hp, h => by
    obtain ⟨j', hj, h⟩ := ok_of_bind h
    obtain ⟨js', hjs, h⟩ := ok_of_bind h
    cases h
    have hhead := every_of_settled harr hobj hunfold (hp j (by simp)) hj
    have htail := every_of_settledItems harr hobj hunfold (fun j hj => hp j (by simp [hj])) hjs
    simpa using ⟨hhead, htail⟩

theorem every_of_settledMembers (harr : ∀ items, p (.arr items) = true)
    (hobj : ∀ members, Ascending members → p (.obj members) = true)
    (hunfold : ∀ {text j}, unfold text = .ok j → every p j = true) :
    ∀ {members acc members' : List (String × Json)},
      (∀ m ∈ members, every (atLeaves p) m.2 = true) → Ascending acc →
      (∀ m ∈ acc, every p m.2 = true) → settledMembers unfold members acc = .ok members' →
      Ascending members' ∧ ∀ m ∈ members', every p m.2 = true
  | [], acc, members', _, hasc, hacc, h => by
    cases h
    exact ⟨hasc, hacc⟩
  | (n, j) :: rest, acc, members', hp, hasc, hacc, h => by
    obtain ⟨j', hj, h⟩ := ok_of_bind h
    have hhead := every_of_settled harr hobj hunfold (hp (n, j) (by simp)) hj
    refine every_of_settledMembers harr hobj hunfold (fun m hm => hp m (by simp [hm]))
      hasc.insertMember (fun m hm => ?_) h
    obtain rfl | hm := mem_insertMember hm
    · exact hhead
    · exact hacc m hm

end

end

theorem every_of_takeValue {p : Json → Bool} (harr : ∀ items, p (.arr items) = true)
    (hobj : ∀ members, Ascending members → p (.obj members) = true)
    (hread : ∀ {text j}, parse text = .ok j → every (atLeaves p) j = true) :
    ∀ {depth : Nat} {j j' : Json}, every (atLeaves p) j = true → takeValue depth j = .ok j' →
      every p j' = true
  | 0, _, _, _, h => by cases h
  | depth + 1, j, j', hp, h => by
    refine every_of_settled harr hobj (fun {text j} hj => ?_) hp h
    split at hj
    · cases hj
    · next hparse => exact every_of_takeValue harr hobj hread (hread hparse) hj

theorem every_of_toValue? {p : Json → Bool} (harr : ∀ items, p (.arr items) = true)
    (hobj : ∀ members, Ascending members → p (.obj members) = true)
    (hread : ∀ {text j}, parse text = .ok j → every (atLeaves p) j = true) {j j' : Json}
    (hp : every (atLeaves p) j = true) (h : j.toValue? = some j') : every p j' = true := by
  cases ht : takeValue maxEmbedding j with
  | error e => simp [toValue?, ht, Except.toOption] at h
  | ok v =>
    simp only [toValue?, ht, Except.toOption, Option.some.injEq] at h
    exact h ▸ every_of_takeValue harr hobj hread hp ht

theorem every_of_forall {p : Json → Bool} (h : ∀ j, p j = true) (j : Json) : every p j = true := by
  induction j using inductionOn with
  | arr items ih => exact every_arr.2 ⟨h _, ih⟩
  | obj members ih => exact every_obj.2 ⟨h _, ih⟩
  | _ => exact h _

theorem atLeaves_isTidy (j : Json) : atLeaves isTidy j = true := by cases j <;> rfl

/-- Whatever value is taken is in order. -/
theorem ordered_of_toValue? {j j' : Json} (h : j.toValue? = some j') : Ordered j' :=
  every_of_toValue? (fun _ => rfl) (fun members hasc => by simp [isTidy, hasc])
    (fun _ => every_of_forall atLeaves_isTidy _) (every_of_forall atLeaves_isTidy j) h

end DurableWorkflow.Json

import DurableWorkflow.Proofs.Json.Numbers
import DurableWorkflow.Proofs.Json.Shape

/-!
# Integers that are read fit 64 bits

Whatever is read from a text has only integers of 64 bits, with or without a sign, and so has every
value that is taken from such a one. The proof follows the reader by its fuel.
-/

namespace DurableWorkflow.Json

variable {manner : Manner}

theorem ok_of_map {ε α β : Type} {x : Except ε α} {f : α → β} {b : β} (h : x.map f = .ok b) :
    ∃ a, x = .ok a ∧ f a = b := by
  cases x with
  | error e => cases h
  | ok a => exact ⟨a, rfl, Except.ok.inj h⟩

theorem narrow_unreadable : Narrow .unreadable := rfl

theorem Narrow.nested {j : Json} (h : Narrow j) (depth : Nat) : Narrow (nested depth j) := by
  unfold Json.nested
  split
  · exact narrow_unreadable
  · exact h

theorem narrow_objectOf {members : List (Option String × Json)} (h : ∀ m ∈ members, Narrow m.2) :
    Narrow (objectOf members) := by
  unfold objectOf
  split
  · next named hnamed =>
    refine every_obj.2 ⟨rfl, ?_⟩
    induction members generalizing named with
    | nil =>
      cases hnamed
      simp
    | cons m rest ih =>
      rw [List.mapM_cons] at hnamed
      obtain ⟨m', hm', hnamed⟩ := Option.bind_eq_some_iff.1 hnamed
      obtain ⟨rest', hrest', hnamed⟩ := Option.bind_eq_some_iff.1 hnamed
      cases hnamed
      obtain ⟨n, -, rfl⟩ := Option.map_eq_some_iff.1 hm'
      intro k hk
      obtain rfl | hk := List.mem_cons.1 hk
      · exact h m (by simp)
      · exact ih (fun m hm => h m (by simp [hm])) rest' hrest' k hk
  · exact narrow_unreadable

theorem narrow_of_decimalNumber {negative : Bool} {whole fraction : List Char} {power : Int}
    {j : Json} (h : decimalNumber negative whole fraction power = some j) : Narrow j := by
  unfold decimalNumber at h
  simp only at h
  generalize (if power > (maxPower : Int) then power else _) = power' at h
  split at h
  · split at h
    · cases h
      rfl
    · cases h
  split at h
  · cases h
    rfl
  · obtain ⟨x, -, rfl⟩ := Option.map_eq_some_iff.1 h
    rfl

theorem narrow_of_inexactOf {negative : Bool} {whole left : List Char}
    {fraction : Option (List Char)} {power : Option Int} {r : Json × List Char}
    (h : inexactOf manner negative whole fraction power left = .ok r) : Narrow r.1 := by
  unfold inexactOf at h
  split at h
  · next hj =>
    cases h
    exact narrow_of_decimalNumber hj
  · cases h
  · cases h
    exact narrow_unreadable

theorem narrow_of_readNumber {cs : List Char} {r : Json × List Char}
    (h : readNumber manner cs = .ok r) : Narrow r.1 := by
  rw [readNumber_eq] at h
  obtain ⟨⟨whole, r₁⟩, -, h⟩ := ok_of_bind h
  obtain ⟨⟨fraction, r₂⟩, -, h⟩ := ok_of_bind h
  obtain ⟨⟨power, r₃⟩, -, h⟩ := ok_of_bind h
  simp only [numberOf] at h
  split at h
  · split at h
    · next hpos =>
      cases h
      simp only [Bool.and_eq_true, decide_eq_true_eq] at hpos
      simp only [Narrow, every, isNarrow, Bool.and_eq_true, decide_eq_true_eq]
      omega
    split at h
    · next hneg =>
      cases h
      simp only [Bool.and_eq_true, decide_eq_true_eq] at hneg
      simp only [Narrow, every, isNarrow, Bool.and_eq_true, decide_eq_true_eq]
      omega
    · exact narrow_of_inexactOf h
  · exact narrow_of_inexactOf h

theorem narrow_of_readWord (value : Json) (hv : Narrow value) :
    ∀ {word cs : List Char} {r : Json × List Char}, readWord value word cs = .ok r → Narrow r.1
  | [], _, _, h => by
    cases h
    exact hv
  | _ :: _, [], _, h => by cases h
  | w :: ws, c :: cs, r, h => by
    rw [readWord] at h
    split at h
    · exact narrow_of_readWord value hv h
    · cases h

theorem narrow_of_read (fuel : Nat) :
    (∀ {depth cs r}, readValue manner fuel depth cs = .ok r → Narrow r.1) ∧
    (∀ {depth cs r}, readItems manner fuel depth cs = .ok r → ∀ j ∈ r.1, Narrow j) ∧
    (∀ {depth cs r}, readMembers manner fuel depth cs = .ok r → ∀ m ∈ r.1, Narrow m.2) := by
  -- The readers call each other, each time with less fuel, so it is one induction for all three.
  induction fuel with
  | zero =>
    refine ⟨fun h => ?_, fun h => ?_, fun h => ?_⟩ <;> cases h
  | succ fuel ih =>
    obtain ⟨ihValue, ihItems, ihMembers⟩ := ih
    refine ⟨?_, ?_, ?_⟩
    · intro depth cs r h
      rw [readValue] at h
      split at h
      · cases h
      · obtain ⟨⟨s, rest⟩, -, rfl⟩ := ok_of_map h
        cases s <;> rfl
      · split at h
        · cases h
        split at h
        · cases h
        · cases h
          exact Narrow.nested (j := .arr []) rfl depth
        · obtain ⟨⟨items, rest⟩, hitems, rfl⟩ := ok_of_map h
          exact Narrow.nested (every_arr.2 ⟨rfl, ihItems hitems⟩) depth
      · split at h
        · cases h
        split at h
        · cases h
        · cases h
          exact Narrow.nested (j := .obj []) rfl depth
        · obtain ⟨⟨members, rest⟩, hmembers, rfl⟩ := ok_of_map h
          exact (narrow_objectOf (ihMembers hmembers)).nested depth
      · exact narrow_of_readWord .null rfl h
      · exact narrow_of_readWord (.bool true) rfl h
      · exact narrow_of_readWord (.bool false) rfl h
      · split at h
        · exact narrow_of_readNumber h
        · cases h
    · intro depth cs r h
      rw [readItems] at h
      split at h
      · cases h
      next hvalue =>
      have hhead := ihValue hvalue
      split at h
      · cases h
      · cases h
        simpa using hhead
      · obtain ⟨⟨js, rest⟩, hitems, rfl⟩ := ok_of_map h
        exact List.forall_mem_cons.2 ⟨hhead, ihItems hitems⟩
    · intro depth cs r h
      rw [readMembers.eq_def] at h
      simp only at h
      split at h
      · split at h
        · cases h
        split at h
        · cases h
        split at h
        · cases h
        next hvalue =>
        have hhead := ihValue hvalue
        split at h
        · cases h
        · cases h
          simpa using hhead
        · obtain ⟨⟨ms, rest⟩, hmembers, rfl⟩ := ok_of_map h
          exact List.forall_mem_cons.2 ⟨hhead, ihMembers hmembers⟩
      · cases h

/-- Integers in what is read from a text fit 64 bits. -/
theorem narrow_of_parseWithin {depth : Nat} {s : String} {j : Json}
    (h : parseWithin manner depth s = .ok j) : Narrow j := by
  unfold parseWithin at h
  obtain ⟨⟨j', rest⟩, hread, h⟩ := ok_of_bind h
  simp only at h
  split at h
  · cases h
    exact (narrow_of_read _).1 hread
  · cases h

/-- Integers in a value that is taken from one with integers of 64 bits fit 64 bits. -/
theorem narrow_of_toValue? {j j' : Json} (hj : Narrow j) (h : j.toValue? = some j') : Narrow j' := by
  have hleaves : ∀ j, isNarrow j = true → atLeaves isNarrow j = true := by
    intro j hj
    cases j with
    | arr | obj | unreadable => rfl
    | _ => exact hj
  exact every_of_toValue? (fun _ => rfl) (fun _ _ => rfl)
    (fun hparse => every_mono hleaves (narrow_of_parseWithin hparse)) (every_mono hleaves hj) h

end DurableWorkflow.Json

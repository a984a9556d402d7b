import DurableWorkflow.Number.Shortest
import DurableWorkflow.Proofs.Text.Digits

/-!
# The text of a binary64 number

A finite number is written with digits, signs, a point and the letter `e`, beginning with a digit or
a minus sign. So its text is read as a number, and no blank stands in it.
-/

namespace DurableWorkflow

open Text

namespace Binary64

/-- The characters of numbers. -/
def isNumeric (c : Char) : Bool := c.isDigit || c == '-' || c == '+' || c == '.' || c == 'e'

/-- Begins like a number, and goes on like one. -/
def Numeric (cs : List Char) : Prop :=
  (∀ c ∈ cs, isNumeric c = true) ∧ ∃ c ∈ cs.head?, c = '-' ∨ c.isDigit = true

theorem Numeric.starts {cs : List Char} (h : Numeric cs) :
    ∃ c ds, cs = c :: ds ∧ (c = '-' ∨ c.isDigit = true) := by
  obtain ⟨-, c, hc, hstart⟩ := h
  cases cs with
  | nil => simp at hc
  | cons d ds =>
    have hdc : d = c := by simpa using hc
    exact ⟨d, ds, rfl, hdc ▸ hstart⟩

theorem Numeric.append {cs ds : List Char} (h : Numeric cs) (hd : ∀ c ∈ ds, isNumeric c = true) :
    Numeric (cs ++ ds) := by
  obtain ⟨hall, c, hc, hstart⟩ := h
  refine ⟨fun d hmem => ?_, c, ?_, hstart⟩
  · obtain hmem | hmem := List.mem_append.1 hmem
    · exact hall d hmem
    · exact hd d hmem
  · simp [List.head?_append, Option.mem_def.1 hc]

theorem Numeric.neg {cs : List Char} (h : Numeric cs) : Numeric ('-' :: cs) :=
  ⟨fun c hc => by
    obtain rfl | hc := List.mem_cons.1 hc
    · rfl
    · exact h.1 c hc, '-', by simp, .inl rfl⟩

theorem isNumeric_of_isDigit {c : Char} (h : c.isDigit = true) : isNumeric c = true := by
  simp [isNumeric, h]

theorem numeric_digits {cs : List Char} (h : ∀ c ∈ cs, c.isDigit = true) (hne : cs ≠ []) :
    Numeric cs := by
  refine ⟨fun c hc => isNumeric_of_isDigit (h c hc), ?_⟩
  cases cs with
  | nil => exact absurd rfl hne
  | cons c cs => exact ⟨c, by simp, .inr (h c (by simp))⟩

theorem isNumeric_of_mem_zeros {n : Nat} {c : Char} (h : c ∈ (zeros n).toList) :
    isNumeric c = true := by
  simp only [zeros, String.toList_ofList, List.mem_replicate] at h
  rw [h.2]
  rfl

theorem isNumeric_of_mem_nat {n : Nat} {c : Char} (h : c ∈ (toString n).toList) :
    isNumeric c = true := by
  rw [toList_toString] at h
  exact isNumeric_of_isDigit (isDigit_of_mem_toDigits h)

theorem numeric_pointAfter {q n : Nat} (h : 0 < n) : Numeric (pointAfter (toString q) n).toList := by
  have hdigits : ∀ c ∈ (toString q).toList, c.isDigit = true := fun c hc =>
    isDigit_of_mem_toDigits (by rwa [toList_toString] at hc)
  have htake : Numeric ((toString q).toList.take n) := by
    refine numeric_digits (fun c hc => hdigits c (List.mem_of_mem_take hc)) ?_
    rw [toList_toString]
    simp [Nat.toDigits_ne_nil]
    omega
  simp only [pointAfter, String.toList_append, String.toList_ofList, List.append_assoc]
  refine htake.append fun c hc => ?_
  obtain hc | hc := List.mem_append.1 hc
  · rw [show c = '.' by simpa using hc]
    rfl
  · exact isNumeric_of_isDigit (hdigits c (List.mem_of_mem_drop hc))

theorem isNumeric_of_mem_exponentText {e : Int} {c : Char} (h : c ∈ (exponentText e).toList) :
    isNumeric c = true := by
  simp only [exponentText, String.toList_append, List.mem_append] at h
  obtain (h | h) | h := h
  · rw [show c = 'e' by simpa using h]
    rfl
  · split at h
    · rw [show c = '-' by simpa using h]
      rfl
    · rw [show c = '+' by simpa using h]
      rfl
  · exact isNumeric_of_mem_nat h

theorem numeric_positiveText (m : Nat) (e : Int) : Numeric (positiveText m e).toList := by
  have hdigits (q : Nat) : Numeric (toString q).toList := by
    rw [toList_toString]
    exact numeric_digits (fun c => isDigit_of_mem_toDigits) Nat.toDigits_ne_nil
  simp only [positiveText]
  split
  · simp only [String.toList_append, List.append_assoc]
    refine (hdigits _).append fun c hc => ?_
    obtain hc | hc := List.mem_append.1 hc
    · exact isNumeric_of_mem_zeros hc
    · exact List.all_eq_true.1 (show ".0".toList.all isNumeric = true by decide +kernel) c hc
  split
  · next hpoint =>
    simp only [Bool.and_eq_true, decide_eq_true_eq] at hpoint
    exact numeric_pointAfter (by omega)
  split
  · have hzero : Numeric "0.".toList :=
      ⟨List.all_eq_true.1 (by decide +kernel), '0', rfl, .inr rfl⟩
    simp only [String.toList_append, List.append_assoc]
    refine hzero.append fun c hc => ?_
    obtain hc | hc := List.mem_append.1 hc
    · exact isNumeric_of_mem_zeros hc
    · exact isNumeric_of_mem_nat hc
  · rw [String.toList_append]
    refine Numeric.append ?_ fun c => isNumeric_of_mem_exponentText
    split
    · exact hdigits _
    · exact numeric_pointAfter (by decide)

theorem numeric_text {x : Binary64} (h : x.isFinite = true) : Numeric x.text.toList := by
  cases x with
  | nan => cases h
  | infinite => cases h
  | finite s m e =>
    have habs : Numeric (if m = 0 then "0.0" else positiveText m e).toList := by
      split
      · exact ⟨List.all_eq_true.1 (by decide +kernel), '0', rfl, .inr rfl⟩
      · exact numeric_positiveText m e
    cases s with
    | false => simpa [text] using habs
    | true => simpa [text] using habs.neg

end Binary64

end DurableWorkflow

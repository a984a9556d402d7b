import DurableWorkflow.Amount
import DurableWorkflow.Proofs.Number.Rounding
import DurableWorkflow.Proofs.Text.Digits

/-!
# Amounts read back

The text of an amount is read as the binary64 number nearest to it. Multiplied by a hundred this is
within a half of the cents as long as they are below `100 · 2 ^ 45`, so these amounts are read back
as they are. The same goes for the next two. The one after them is the first that is lost: its text
is read as one cent more.
-/

namespace DurableWorkflow

open Text

/-! ### Reading digits with a point between them -/

namespace Binary64

/-- Before and after the point there are only digits. -/
theorem readUnsigned_point (negative : Bool) {whole fraction : List Char}
    (hwhole : ∀ c ∈ whole, c.isDigit = true) (hfraction : ∀ c ∈ fraction, c.isDigit = true)
    (hne : whole ≠ []) : readUnsigned negative (whole ++ '.' :: fraction)
      = some (ofWideDecimal negative (digitsValue (whole ++ fraction)) (whole ++ fraction).length
          (-fraction.length)) := by
  have hstop : Stops Char.isDigit ('.' :: fraction) := by
    rw [stops_cons]
    rfl
  have htake : fraction.takeWhile Char.isDigit = fraction := by
    simpa using takeWhile_append hfraction (stops_nil Char.isDigit)
  have hdrop : fraction.dropWhile Char.isDigit = [] := by
    simpa using dropWhile_append hfraction (stops_nil Char.isDigit)
  simp [readUnsigned, takeWhile_append hwhole hstop, dropWhile_append hwhole hstop, htake, hdrop, hne,
    readExponent]

/-- What begins with a digit has no sign, and is no word. -/
theorem ofChars?_digit {d : Char} (hd : d.isDigit = true) (cs : List Char) :
    ofChars? (d :: cs) = readUnsigned false (d :: cs) := by
  have hcode : 48 ≤ d.toNat ∧ d.toNat ≤ 57 := by
    simpa [Char.isDigit, UInt32.le_iff_toNat_le] using hd
  have hlower : d.toLower = d := by
    have hupper : ¬ ('A' ≤ d) := by
      intro h
      have := UInt32.le_iff_toNat_le.1 h
      have hA : 'A'.val.toNat = 65 := rfl
      have hval : d.val.toNat = d.toNat := rfl
      omega
    delta Char.toLower
    split
    · next h => exact absurd h.1 hupper
    · rfl
  have hword (w : List Char) {c : Char} (hw : w.head? = some c) (hc : 57 < c.toNat) :
      (String.ofList ((d :: cs).map Char.toLower) == String.ofList w) = false := by
    rw [beq_eq_false_iff_ne]
    intro heq
    have hlist := String.ofList_injective heq
    rw [List.map_cons, hlower] at hlist
    rw [← hlist, List.head?_cons, Option.some.injEq] at hw
    subst hw
    omega
  have hinf := hword "inf".toList rfl (by decide)
  have hinfinity := hword "infinity".toList rfl (by decide)
  have hnan := hword "nan".toList rfl (by decide)
  have hminus : d ≠ '-' := by
    rintro rfl
    exact absurd hd (by decide)
  have hplus : d ≠ '+' := by
    rintro rfl
    exact absurd hd (by decide)
  rw [String.ofList_toList] at hinf hinfinity hnan
  unfold ofChars?
  split
  next negative body heq =>
  obtain ⟨rfl, rfl⟩ : false = negative ∧ d :: cs = body := by
    split at heq
    · next heq' => exact absurd (List.cons.inj heq').1 hminus
    · next heq' => exact absurd (List.cons.inj heq').1 hplus
    · exact Prod.mk.inj heq
  simp only [hinf, hinfinity, hnan, Bool.or_self, Bool.false_eq_true, if_false]

end Binary64

namespace Amount

/-! ### The number that is read -/

theorem toList_text (cents : Nat) : (text cents).toList =
    Nat.toDigits 10 (cents / 100) ++ '.' :: (padded 2 (cents % 100)).toList := by
  simp [text]

/-- An amount begins and ends with a digit. -/
theorem trimmed_text (cents : Nat) : trimmed (text cents) = text cents := by
  have hwhole : ∀ c ∈ Nat.toDigits 10 (cents / 100), c.isDigit = true :=
    fun c => isDigit_of_mem_toDigits
  have hcents : ∀ c ∈ (padded 2 (cents % 100)).toList.reverse, c.isDigit = true :=
    fun c hc => isDigit_of_mem_padded (List.mem_reverse.1 hc)
  have hne : (padded 2 (cents % 100)).toList.reverse ≠ [] := by
    have := width_le_length_padded 2 (cents % 100)
    intro h
    rw [List.reverse_eq_nil_iff.1 h] at this
    simp at this
  have hfront : skipBlanks (text cents).toList = (text cents).toList := by
    rw [toList_text]
    exact skipBlanks_of_digits hwhole Nat.toDigits_ne_nil
  have hback : skipBlanks (text cents).toList.reverse = (text cents).toList.reverse := by
    rw [toList_text, List.reverse_append, List.reverse_cons, List.append_assoc]
    exact skipBlanks_of_digits hcents hne
  rw [trimmed, trim, hfront, hback, List.reverse_reverse, String.ofList_toList]

/-- The digits of an amount without the point. -/
theorem digitsValue_text (cents : Nat) :
    digitsValue (Nat.toDigits 10 (cents / 100) ++ (padded 2 (cents % 100)).toList) = cents := by
  have hlen : (padded 2 (cents % 100)).toList.length = 2 :=
    length_padded (by decide) (Nat.mod_lt cents (by decide))
  have hcents : Nat.ofDigitChars 10 (padded 2 (cents % 100)).toList 0 = cents % 100 := by
    rw [← digitsValue_eq, digitsValue_padded]
  rw [digitsValue_eq, Nat.ofDigitChars_append, Nat.ofDigitChars_ten_toDigits,
    Nat.ofDigitChars_eq_ofDigitChars_zero, hlen, hcents]
  omega

theorem ofText?_text (cents : Nat) :
    Binary64.ofText? (text cents) = some (Binary64.ofRatio false cents 100) := by
  have hwhole : ∀ c ∈ Nat.toDigits 10 (cents / 100), c.isDigit = true :=
    fun c => isDigit_of_mem_toDigits
  have hlen : (padded 2 (cents % 100)).toList.length = 2 :=
    length_padded (by decide) (Nat.mod_lt cents (by decide))
  rw [Binary64.ofText?, toList_text]
  rcases hdigits : Nat.toDigits 10 (cents / 100) with _ | ⟨d, ds⟩
  · exact absurd hdigits Nat.toDigits_ne_nil
  have hcents : ∀ c ∈ (padded 2 (cents % 100)).toList, c.isDigit = true :=
    fun c => isDigit_of_mem_padded
  have hread := Binary64.readUnsigned_point false hwhole hcents Nat.toDigits_ne_nil
  rw [digitsValue_text, hlen, hdigits] at hread
  rw [List.cons_append, Binary64.ofChars?_digit (hwhole d (by simp [hdigits])), ← List.cons_append,
    hread, Binary64.ofWideDecimal, if_neg (by simp [hlen]; omega), if_neg (by simp)]
  rcases Nat.eq_zero_or_pos cents with rfl | hpos
  · rfl
  · rw [Binary64.ofDecimal, if_neg hpos.ne', if_neg (by decide), if_pos (by decide)]
    rfl

/-! ### The cents of the number -/

/-- A hundred times a number within `2 ^ -9` of a hundredth of the cents is rounded to the cents. -/
theorem ofNumber?_near {cents m : Nat} {e : Int} (hcents : cents < 100 * 2 ^ 45)
    (h : |Binary64.value m e - cents / 100| ≤ 2 ^ (-9 : Int)) :
    ofNumber? (.finite false m e) = some cents := by
  obtain ⟨hundred, f, hround, hvalue⟩ := Binary64.ofRatio_one false (by decide : 100 < 2 ^ 53)
  have hcents' : (cents : ℚ) < 3518437208883200 := by
    exact_mod_cast (hcents : cents < 3518437208883200)
  have hpos : (Binary64.finite false m e).lt Binary64.zero = false := by
    simp [Binary64.lt, Binary64.zero, Binary64.units]
  obtain ⟨hlow, hhigh⟩ := abs_le.1 h
  have hninth : (2 : ℚ) ^ (-9 : Int) = 1 / 512 := by norm_num
  rw [hninth] at hlow hhigh
  -- the exact product, and what it is rounded to
  have hproduct : ((Binary64.scaled (m * hundred) (e + f)).1 : ℚ)
      / (Binary64.scaled (m * hundred) (e + f)).2 = Binary64.value m e * 100 := by
    rw [Binary64.scaled_value, Binary64.value_mul, hvalue, Nat.cast_ofNat]
  have hsmall : ((Binary64.scaled (m * hundred) (e + f)).1 : ℚ)
      / (Binary64.scaled (m * hundred) (e + f)).2 < 2 ^ (52 : Int) := by
    rw [hproduct]
    norm_num
    linarith
  obtain ⟨n, g, hmul, hnear⟩ := Binary64.ofRatio_near false
    (Binary64.scaled (m * hundred) (e + f)).1 (Binary64.scaled_snd_pos (m * hundred) (e + f))
    (by decide : Binary64.minExponent + 53 ≤ 52) (by decide) hsmall
  rw [hproduct] at hnear
  have hhalf : |Binary64.value n g - cents| < 1 / 2 := by
    have hquarter : (2 : ℚ) ^ (52 - 54 : Int) = 1 / 4 := by norm_num
    rw [hquarter] at hnear
    obtain ⟨hbelow, habove⟩ := abs_le.1 hnear
    rw [abs_lt]
    constructor <;> linarith
  obtain ⟨n', g', hwhole, hwhole'⟩ :=
    Binary64.roundHalfAway_near (Nat.lt_trans hcents (by decide)) hhalf
  have hmul' : (Binary64.finite false m e).mul (Binary64.ofNat 100) = .finite false n g := by
    rw [Binary64.ofNat, hround]
    exact hmul
  have hclamped : (Binary64.finite false n' g').toNatClamped maxCents = cents :=
    Binary64.toNatClamped_finite (Nat.le_of_lt (Nat.lt_trans hcents (by decide))) hwhole'
  rw [ofNumber?, hpos, hmul', hwhole, hclamped]
  rfl

/-! ### Round trips -/

/-- The first amount that is not read back. -/
def firstLost : Nat := 100 * twoTo 45 + 2

theorem parse_text_of_lt {cents : Nat} (h : cents < 100 * 2 ^ 45) :
    parse (text cents) = .ok cents := by
  have hsmall : ((cents : Nat) : ℚ) / (100 : Nat) < 2 ^ (45 : Int) := by
    rw [div_lt_iff₀ (by norm_num)]
    exact_mod_cast (by omega : cents < 2 ^ 45 * 100)
  obtain ⟨m, e, hround, hnear⟩ := Binary64.ofRatio_near false cents (by decide : 0 < 100)
    (by decide : Binary64.minExponent + 53 ≤ 45) (by decide) hsmall
  have hcents : ofNumber? (.finite false m e) = some cents :=
    ofNumber?_near h (by simpa using hnear)
  rw [parse, trimmed_text, ofText?_text, hround, Option.bind_some, hcents]

/-- One more cent is read. -/
theorem parse_text_firstLost : parse (text firstLost) = .ok (firstLost + 1) := by decide +kernel

/-- All amounts up to a limit are read back as they are exactly if the limit is below the first that
is lost. -/
theorem parse_text_iff (limit : Nat) :
    (∀ cents ≤ limit, parse (text cents) = .ok cents) ↔ limit < firstLost := by
  constructor
  · intro hall
    by_contra hlimit
    have hread := hall firstLost (Nat.not_lt.1 hlimit)
    rw [parse_text_firstLost] at hread
    exact absurd (Except.ok.inj hread) (Nat.succ_ne_self _)
  · intro hlimit cents hle
    have hlast : cents < 100 * 2 ^ 45 ∨ cents = 100 * 2 ^ 45 ∨ cents = 100 * 2 ^ 45 + 1 := by
      have : firstLost = 100 * 2 ^ 45 + 2 := rfl
      omega
    rcases hlast with hlt | rfl | rfl
    · exact parse_text_of_lt hlt
    · decide +kernel
    · decide +kernel

end Amount

end DurableWorkflow

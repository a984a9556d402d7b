import DurableWorkflow.Json.Printer
import DurableWorkflow.Json.Reader
import DurableWorkflow.Proofs.Codec.Basic
import DurableWorkflow.Proofs.Text.Digits

/-!
# Numbers read back

An integer of 64 bits is read as it was written where what follows does not go on with the number.
A number of any kind that is read from a text on its own is read the same from the beginning of a
longer text.
-/

namespace DurableWorkflow.Json

open Text

/-- May a number go on with the character? -/
def goesOn (c : Char) : Bool := c.isDigit || c == '.' || c == 'e' || c == 'E'

/-- The characters do not go on with a number. -/
def EndsNumber (cs : List Char) : Prop := Stops goesOn cs

namespace EndsNumber

variable {rest : List Char}

theorem digits (h : EndsNumber rest) : Stops Char.isDigit rest :=
  h.mono fun c hc => by simp [goesOn, hc]

theorem readFraction (h : EndsNumber rest) : readFraction rest = .ok (none, rest) := by
  unfold Json.readFraction
  split
  · exact absurd (stops_cons.1 h) (by decide)
  · rfl

theorem readPower (h : EndsNumber rest) (manner : Manner) (isZero : Bool) :
    readPower manner isZero rest = .ok (none, rest) := by
  cases rest with
  | nil => rfl
  | cons c rest =>
    have hc : (c == 'e' || c == 'E') = false := by
      have : goesOn c = false := stops_cons.1 h
      simp only [goesOn, Bool.or_eq_false_iff] at this
      simp [this.1.2, this.2]
    simp [Json.readPower, hc]

end EndsNumber

/-! ### Integers -/

theorem head_toDigits_ne_zero {n : Nat} (h : 0 < n) : (Nat.toDigits 10 n).head? ≠ some '0' := by
  induction n using Nat.strongRecOn with
  | ind n ih =>
    by_cases hn : n < 10
    · have hchar : ∀ m < 10, 0 < m → m.digitChar ≠ '0' := by decide
      simpa [Nat.toDigits_of_lt_base hn] using hchar n hn h
    · rw [Nat.toDigits_of_base_le (by decide) (by omega)]
      have := ih (n / 10) (by omega) (by omega)
      cases hd : Nat.toDigits 10 (n / 10) with
      | nil => exact absurd hd Nat.toDigits_ne_nil
      | cons d ds => simpa [hd] using this

theorem readWhole_toDigits (n : Nat) {rest : List Char} (h : EndsNumber rest) :
    readWhole (Nat.toDigits 10 n ++ rest) = .ok (Nat.toDigits 10 n, rest) := by
  cases n with
  | zero =>
    have hhead : ((rest.head?.map Char.isDigit).getD false) = false := by
      cases rest with
      | nil => rfl
      | cons c rest => simpa using stops_cons.1 h.digits
    simp [readWhole, hhead]
  | succ n =>
    have hne := head_toDigits_ne_zero (Nat.succ_pos n)
    have hdigits : ∀ c ∈ Nat.toDigits 10 (n + 1), c.isDigit = true := fun c => isDigit_of_mem_toDigits
    have htake := takeWhile_append hdigits h.digits
    have hdrop := dropWhile_append hdigits h.digits
    cases hd : Nat.toDigits 10 (n + 1) with
    | nil => exact absurd hd Nat.toDigits_ne_nil
    | cons d ds =>
      rw [hd] at hne htake hdrop
      unfold readWhole
      split
      · next heq => simp at heq
      · next heq => exact absurd (by simpa using (List.cons.inj heq).1) hne
      · simp only [htake, hdrop, List.isEmpty_cons, Bool.false_eq_true, if_false]

theorem readNumber_nat {manner : Manner} {n : Nat} (hn : n < twoTo 64) {rest : List Char}
    (h : EndsNumber rest) : readNumber manner (Nat.toDigits 10 n ++ rest) = .ok (.int n, rest) := by
  cases hd : Nat.toDigits 10 n with
  | nil => exact absurd hd Nat.toDigits_ne_nil
  | cons d ds =>
    have hminus : d ≠ '-' := by
      rintro rfl
      have hdigit : Char.isDigit '-' = true := isDigit_of_mem_toDigits (n := n) (by simp [hd])
      exact absurd hdigit (by decide)
    have hwhole := readWhole_toDigits n h
    have hvalue := digitsValue_toDigits n
    rw [hd] at hwhole hvalue
    rw [List.cons_append] at hwhole ⊢
    unfold readNumber
    split
    next heq =>
    split at heq
    · next he => exact absurd (List.cons.inj he).1 hminus
    · cases heq
      simp only [hwhole, bind, Except.bind, h.readFraction, h.readPower, hvalue]
      simp [hn, pure, Except.pure]

theorem readNumber_neg {manner : Manner} {n : Nat} (h0 : 0 < n) (hn : n ≤ twoTo 63)
    {rest : List Char} (h : EndsNumber rest) :
    readNumber manner ('-' :: (Nat.toDigits 10 n ++ rest)) = .ok (.int (-n), rest) := by
  simp only [readNumber, readWhole_toDigits n h, bind, Except.bind, h.readFraction, h.readPower]
  simp [h0, hn, pure, Except.pure]

theorem toList_toString_int (n : Int) : (toString n).toList =
    if n < 0 then '-' :: Nat.toDigits 10 n.natAbs else Nat.toDigits 10 n.natAbs := by
  cases n with
  | ofNat m => exact toList_toString m
  | negSucc m =>
    have htext : toString (Int.negSucc m) = "-" ++ toString (m + 1) := rfl
    rw [htext, String.toList_append, toList_toString, if_pos (Int.negSucc_lt_zero m)]
    rfl

theorem toString_int_starts (n : Int) :
    ∃ c cs, (toString n).toList = c :: cs ∧ (c = '-' ∨ c.isDigit = true) := by
  rw [toList_toString_int]
  split
  · exact ⟨'-', _, rfl, .inl rfl⟩
  · obtain ⟨d, ds, hd⟩ := List.exists_cons_of_ne_nil (Nat.toDigits_ne_nil (n := n.natAbs) (b := 10))
    exact ⟨d, ds, hd, .inr (isDigit_of_mem_toDigits (n := n.natAbs) (by simp [hd]))⟩

/-- An integer of 64 bits is read as it was written. -/
theorem readNumber_int {manner : Manner} {n : Int} (hlo : -(twoTo 63 : Int) ≤ n)
    (hhi : n < twoTo 64) {rest : List Char} (h : EndsNumber rest) :
    readNumber manner ((toString n).toList ++ rest) = .ok (.int n, rest) := by
  rw [toList_toString_int]
  split
  · have hneg : -(n.natAbs : Int) = n := by omega
    rw [List.cons_append, readNumber_neg (by omega) (by omega) h, hneg]
  · have hnat : (n.natAbs : Int) = n := by omega
    rw [readNumber_nat (by omega) h, hnat]

/-! ### Numbers at the beginning of a text -/

section

variable {manner : Manner} {cs left rest : List Char}

theorem readWhole_append {ds : List Char} (h : readWhole cs = .ok (ds, left))
    (hr : EndsNumber rest) : readWhole (cs ++ rest) = .ok (ds, left ++ rest) := by
  unfold readWhole at h
  split at h
  · cases h
  · next tail =>
    split at h
    · cases h
    · next hhead =>
      cases h
      have hhead' : ((left ++ rest).head?.map Char.isDigit).getD false = false := by
        cases left with
        | nil =>
          cases rest with
          | nil => rfl
          | cons c rest => simpa using stops_cons.1 hr.digits
        | cons c left => simpa using hhead
      simp only [List.cons_append, readWhole, hhead', Bool.false_eq_true, if_false]
  · next hnil hzero =>
    simp only at h
    split at h
    · cases h
    · next hds =>
      cases h
      unfold readWhole
      split
      · next heq => simp_all
      · next heq =>
        cases cs with
        | nil => exact absurd rfl hnil
        | cons c cs => exact absurd (by rw [(List.cons.inj heq).1]) (hzero cs)
      · simp only [takeWhile_append_stops cs hr.digits, dropWhile_append_stops cs hr.digits, hds]
        rfl

theorem readFraction_append {fraction : Option (List Char)}
    (h : readFraction cs = .ok (fraction, left)) (hr : EndsNumber rest) :
    readFraction (cs ++ rest) = .ok (fraction, left ++ rest) := by
  unfold readFraction at h
  split at h
  · next tail =>
    simp only at h
    split at h
    · cases h
    next hne =>
    split at h
    · cases h
    next hds =>
    cases h
    have hne' : (tail ++ rest).isEmpty = false := by
      cases tail with
      | nil => exact absurd rfl hne
      | cons => rfl
    simp only [List.cons_append, readFraction, hne', Bool.false_eq_true, if_false,
      takeWhile_append_stops tail hr.digits, dropWhile_append_stops tail hr.digits, hds]
  · next hdot =>
    cases h
    cases cs with
    | nil => exact hr.readFraction
    | cons c cs =>
      unfold readFraction
      split
      · next heq => exact absurd (by rw [(List.cons.inj heq).1]) (hdot cs)
      · rfl

/-- The sign of an exponent, and the characters after it. -/
def powerSign : List Char → Bool × List Char
  | '-' :: r => (true, r)
  | '+' :: r => (false, r)
  | r => (false, r)

theorem powerSign_append (h : (powerSign cs).2 ≠ []) :
    powerSign (cs ++ rest) = ((powerSign cs).1, (powerSign cs).2 ++ rest) := by
  cases cs with
  | nil => exact absurd rfl h
  | cons c cs =>
    unfold powerSign
    split <;> simp_all [powerSign]

theorem readPower_cons {isZero : Bool} {c : Char} (hc : (c == 'e' || c == 'E') = true) :
    readPower manner isZero (c :: cs) =
      if (powerSign cs).2.isEmpty then .error ⟨.endInValue, 0⟩
      else if ((powerSign cs).2.takeWhile Char.isDigit).isEmpty then
        .error (.atNext .badNumber (powerSign cs).2)
      else if manner = .strict && !isZero && !(powerSign cs).1
          && digitsValue ((powerSign cs).2.takeWhile Char.isDigit) > maxPower then
        .error (.before .numberTooLarge (pastMaxPower 0 (powerSign cs).2))
      else .ok (some (if (powerSign cs).1
          then -(digitsValue ((powerSign cs).2.takeWhile Char.isDigit) : Int)
          else digitsValue ((powerSign cs).2.takeWhile Char.isDigit)),
        (powerSign cs).2.dropWhile Char.isDigit) := by
  simp only [readPower, hc, if_true]
  rfl

theorem readPower_append {isZero : Bool} {power : Option Int}
    (h : readPower .strict isZero cs = .ok (power, left)) (hr : EndsNumber rest) :
    readPower manner isZero (cs ++ rest) = .ok (power, left ++ rest) := by
  cases cs with
  | nil =>
    cases h
    exact hr.readPower manner isZero
  | cons c cs =>
    by_cases hc : (c == 'e' || c == 'E') = true
    · rw [readPower_cons hc] at h
      split at h
      · cases h
      next hne =>
      split at h
      · cases h
      next hds =>
      split at h
      · cases h
      next hsmall =>
      cases h
      have hsign : powerSign (cs ++ rest) = ((powerSign cs).1, (powerSign cs).2 ++ rest) :=
        powerSign_append (by simpa using hne)
      have hne' : ((powerSign cs).2 ++ rest).isEmpty = false := by
        cases hcs : (powerSign cs).2 with
        | nil => simp [hcs] at hne
        | cons => rfl
      have hsmall' : (decide (manner = Manner.strict) && !isZero && !(powerSign cs).1
          && decide (digitsValue ((powerSign cs).2.takeWhile Char.isDigit) > maxPower)) = false := by
        simp only [decide_true, Bool.true_and] at hsmall
        cases manner <;> simp_all
      rw [List.cons_append, readPower_cons hc, hsign]
      simp only [hne', takeWhile_append_stops _ hr.digits, dropWhile_append_stops _ hr.digits, hds,
        hsmall', Bool.false_eq_true, if_false]
    · simp only [readPower, hc] at h
      cases h
      simp only [List.cons_append, readPower, hc]
      rfl

/-- The sign of a number, and the characters after it. -/
def numberSign : List Char → Bool × List Char
  | '-' :: r => (true, r)
  | r => (false, r)

/-- The number with these parts that is no integer of 64 bits, before the characters left. -/
def inexactOf (manner : Manner) (negative : Bool) (whole : List Char)
    (fraction : Option (List Char)) (power : Option Int) (left : List Char) :
    Except Fault (Json × List Char) :=
  match decimalNumber negative whole (fraction.getD []) (power.getD 0), manner with
  | some j, _ => .ok (j, left)
  | none, .strict => .error (.before .numberTooLarge left)
  | none, .lenient => .ok (.unreadable, left)

/-- The number with these parts, before the characters left. -/
def numberOf (manner : Manner) (negative : Bool) (whole : List Char) (fraction : Option (List Char))
    (power : Option Int) (left : List Char) : Except Fault (Json × List Char) :=
  let n := digitsValue whole
  if fraction.isNone && power.isNone then
    if !negative && n < twoTo 64 then .ok (.int n, left)
    else if negative && 0 < n && n ≤ twoTo 63 then .ok (.int (-(n : Int)), left)
    else inexactOf manner negative whole fraction power left
  else inexactOf manner negative whole fraction power left

theorem readNumber_eq (manner : Manner) (cs : List Char) : readNumber manner cs = (do
    let (whole, rest) ← readWhole (numberSign cs).2
    let (fraction, rest) ← readFraction rest
    let (power, rest) ← readPower manner ((whole ++ fraction.getD []).all (· == '0')) rest
    numberOf manner (numberSign cs).1 whole fraction power rest) := rfl

section

variable {negative : Bool} {whole left' : List Char} {fraction : Option (List Char)}
  {power : Option Int} {j : Json}

theorem inexactOf_append (h : inexactOf .strict negative whole fraction power left = .ok (j, left'))
    (rest : List Char) : left' = left ∧
      inexactOf manner negative whole fraction power (left ++ rest) = .ok (j, left ++ rest) := by
  unfold inexactOf at h ⊢
  cases hd : decimalNumber negative whole (fraction.getD []) (power.getD 0) with
  | none => simp [hd] at h
  | some d =>
    simp only [hd] at h
    cases h
    exact ⟨rfl, rfl⟩

theorem numberOf_append (h : numberOf .strict negative whole fraction power left = .ok (j, left'))
    (rest : List Char) : left' = left ∧
      numberOf manner negative whole fraction power (left ++ rest) = .ok (j, left ++ rest) := by
  simp only [numberOf] at h ⊢
  split at h
  · next hnone =>
    rw [if_pos hnone]
    split at h
    · next hpos =>
      cases h
      exact ⟨rfl, if_pos hpos⟩
    next hpos =>
    rw [if_neg hpos]
    split at h
    · next hneg =>
      cases h
      exact ⟨rfl, if_pos hneg⟩
    next hneg =>
    rw [if_neg hneg]
    exact inexactOf_append h rest
  · next hsome =>
    rw [if_neg hsome]
    exact inexactOf_append h rest

end

theorem numberSign_append (h : (numberSign cs).2 ≠ []) :
    numberSign (cs ++ rest) = ((numberSign cs).1, (numberSign cs).2 ++ rest) := by
  cases cs with
  | nil => exact absurd rfl h
  | cons c cs =>
    unfold numberSign
    split <;> simp_all [numberSign]

/-- What is read from a text is read from the beginning of a longer text. -/
theorem readNumber_append {j : Json} (h : readNumber .strict cs = .ok (j, left))
    (hr : EndsNumber rest) : readNumber manner (cs ++ rest) = .ok (j, left ++ rest) := by
  rw [readNumber_eq] at h
  obtain ⟨⟨whole, r₁⟩, hw, h⟩ := ok_of_bind h
  obtain ⟨⟨fraction, r₂⟩, hf, h⟩ := ok_of_bind h
  obtain ⟨⟨power, r₃⟩, hp, h⟩ := ok_of_bind h
  obtain ⟨rfl, hnumber⟩ := numberOf_append h rest
  have hsign : numberSign (cs ++ rest) = ((numberSign cs).1, (numberSign cs).2 ++ rest) :=
    numberSign_append fun hnil => by simp [hnil, readWhole] at hw
  rw [readNumber_eq, hsign]
  simp only [readWhole_append hw hr, readFraction_append hf hr, readPower_append hp hr, bind,
    Except.bind]
  exact hnumber

theorem suffix_of_readWhole {ds : List Char} (h : readWhole cs = .ok (ds, left)) : left <:+ cs := by
  unfold readWhole at h
  split at h
  · cases h
  · split at h
    · cases h
    · cases h
      exact List.suffix_cons ..
  · simp only at h
    split at h
    · cases h
    · cases h
      exact List.dropWhile_suffix _

theorem suffix_of_readFraction {fraction : Option (List Char)}
    (h : readFraction cs = .ok (fraction, left)) : left <:+ cs := by
  unfold readFraction at h
  split at h
  · simp only at h
    split at h
    · cases h
    split at h
    · cases h
    · cases h
      exact (List.dropWhile_suffix _).trans (List.suffix_cons ..)
  · cases h
    exact List.suffix_refl _

theorem powerSign_suffix (cs : List Char) : (powerSign cs).2 <:+ cs := by
  unfold powerSign
  split
  · exact List.suffix_cons ..
  · exact List.suffix_cons ..
  · exact List.suffix_refl _

theorem suffix_of_readPower {isZero : Bool} {power : Option Int}
    (h : readPower manner isZero cs = .ok (power, left)) : left <:+ cs := by
  cases cs with
  | nil =>
    cases h
    exact List.suffix_refl _
  | cons c cs =>
    by_cases hc : (c == 'e' || c == 'E') = true
    · rw [readPower_cons hc] at h
      split at h
      · cases h
      split at h
      · cases h
      split at h
      · cases h
      · cases h
        exact ((List.dropWhile_suffix _).trans (powerSign_suffix cs)).trans (List.suffix_cons ..)
    · simp only [readPower, hc] at h
      cases h
      exact List.suffix_refl _

theorem numberSign_suffix (cs : List Char) : (numberSign cs).2 <:+ cs := by
  unfold numberSign
  split
  · exact List.suffix_cons ..
  · exact List.suffix_refl _

theorem suffix_of_readNumber {j : Json} (h : readNumber .strict cs = .ok (j, left)) :
    left <:+ cs := by
  rw [readNumber_eq] at h
  obtain ⟨⟨whole, r₁⟩, hw, h⟩ := ok_of_bind h
  obtain ⟨⟨fraction, r₂⟩, hf, h⟩ := ok_of_bind h
  obtain ⟨⟨power, r₃⟩, hp, h⟩ := ok_of_bind h
  obtain ⟨rfl, -⟩ : left = r₃ ∧ numberOf .strict _ _ _ _ (r₃ ++ []) = _ := numberOf_append h []
  exact (((suffix_of_readPower hp).trans (suffix_of_readFraction hf)).trans
    (suffix_of_readWhole hw)).trans (numberSign_suffix cs)

end

end DurableWorkflow.Json

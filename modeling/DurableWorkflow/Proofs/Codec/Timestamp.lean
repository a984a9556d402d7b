import DurableWorkflow.Proofs.Codec.Calendar
import DurableWorkflow.Proofs.Text.Digits
import DurableWorkflow.Time.Rfc3339

/-!
# Timestamps read back

A timestamp is valid if it lies within the calendar and has nanoseconds of a leap second only at the
end of a minute. The text of a valid timestamp is read as that timestamp, and only valid timestamps
are read.
-/

namespace DurableWorkflow.Timestamp

open Text

structure Valid (t : Timestamp) : Prop where
  inRange : t.inRange = true
  nanos : t.nanos < 2 * Nanos.perSecond
  /-- A leap second is the last of its minute. -/
  leap : Nanos.perSecond ≤ t.nanos → t.seconds % 60 = 59

/-! ### Earlier and later -/

theorem le_iff (a b : Timestamp) :
    a.le b = true ↔ a.seconds < b.seconds ∨ a.seconds = b.seconds ∧ a.nanos ≤ b.nanos := by
  simp only [le, Bool.or_eq_true, Bool.and_eq_true, decide_eq_true_eq, beq_iff_eq]

theorem le_trans {a b c : Timestamp} (hab : a.le b = true) (hbc : b.le c = true) :
    a.le c = true := by
  rw [le_iff] at *
  omega

/-! ### Digits -/

theorem padded_ne_empty {width n : Nat} (hw : 0 < width) : padded width n ≠ "" := by
  have := width_le_length_padded width n
  intro h
  simp only [h, String.toList_empty, List.length_nil] at this
  omega

theorem readField_padded {width n : Nat} (hw : 0 < width) (h : n < 10 ^ width)
    (rest : List Char) : readField width ((padded width n).toList ++ rest) = some (n, rest) := by
  have hdigits : ∀ c ∈ (padded width n).toList, c.isDigit = true := fun c => isDigit_of_mem_padded
  have hlen := length_padded hw h
  have htake : (((padded width n).toList ++ rest).take width).takeWhile Char.isDigit
      = (padded width n).toList := by
    rw [List.take_left' hlen]
    simpa using takeWhile_append hdigits (stops_nil _)
  rw [readField, skipBlanks_of_digits hdigits (by simpa using padded_ne_empty hw)]
  simp only [htake, digitsValue_padded, hlen, List.drop_left' hlen]
  simp [padded_ne_empty hw]

/-- A month, a day, an hour, a minute or a second. -/
theorem readField_pair {n : Nat} (h : n < 100) (rest : List Char) :
    readField 2 ((padded 2 n).toList ++ rest) = some (n, rest) := readField_padded (by decide) h rest

theorem readSigned_padded {n : Nat} {rest : List Char} (f : Int → Int)
    (hr : Stops Char.isDigit rest) :
    readYear.readSigned ((padded 4 n).toList ++ rest) f = some (f n, rest) := by
  have hdigits : ∀ c ∈ (padded 4 n).toList, c.isDigit = true := fun c => isDigit_of_mem_padded
  rw [readYear.readSigned]
  simp only [takeWhile_append hdigits hr, digitsValue_padded, List.drop_left]
  simp [padded_ne_empty]

theorem readYear_yearText (y : Int) {rest : List Char} (hr : Stops Char.isDigit rest) :
    readYear ((yearText y).toList ++ rest) = some (y, rest) := by
  unfold yearText
  split
  · next h =>
    simp only [Bool.and_eq_true, decide_eq_true_eq] at h
    have hn : y.toNat < 10 ^ 4 := by omega
    have hdigits : ∀ c ∈ (padded 4 y.toNat).toList, c.isDigit = true :=
      fun c => isDigit_of_mem_padded
    have hread := readField_padded (by decide) hn rest
    obtain ⟨d, ds, hds⟩ := List.exists_cons_of_ne_nil
      (show (padded 4 y.toNat).toList ≠ [] by simpa using padded_ne_empty (by decide))
    have hd : d.isDigit = true := hdigits d (by simp [hds])
    have hskip : skipBlanks (d :: (ds ++ rest)) = d :: (ds ++ rest) :=
      dropWhile_eq_self (by simpa using isBlank_of_isDigit hd)
    rw [hds, List.cons_append] at hread ⊢
    rw [readYear, hskip]
    split
    · next heq =>
      rw [(List.cons.inj heq).1] at hd
      exact absurd hd (by decide)
    · next heq =>
      rw [(List.cons.inj heq).1] at hd
      exact absurd hd (by decide)
    · simp [hread, Int.toNat_of_nonneg h.1]
  · have hminus : skipBlanks ('-' :: ((padded 4 y.natAbs).toList ++ rest))
        = '-' :: ((padded 4 y.natAbs).toList ++ rest) := dropWhile_eq_self (by simp; decide)
    have hplus : skipBlanks ('+' :: ((padded 4 y.natAbs).toList ++ rest))
        = '+' :: ((padded 4 y.natAbs).toList ++ rest) := dropWhile_eq_self (by simp; decide)
    split
    · next hneg =>
      simp only [String.toList_append, String.reduceToList, List.cons_append, List.nil_append,
        readYear, hminus, readSigned_padded _ hr]
      exact congrArg some (Prod.ext (by simp only; omega) rfl)
    · next hneg =>
      simp only [String.toList_append, String.reduceToList, List.cons_append, List.nil_append,
        readYear, hplus, readSigned_padded _ hr]
      exact congrArg some (Prod.ext (by simp only; omega) rfl)

theorem readMark_self {c : Char} (h : isBlank c = false) (rest : List Char) :
    readMark c (c :: rest) = some rest := by
  have : skipBlanks (c :: rest) = c :: rest := dropWhile_eq_self (by simpa using h)
  simp [readMark, this]

/-! ### Date, time and fraction -/

/-- The digits of a date with hyphens between its parts. -/
def dateChars (d : Date) : List Char :=
  (yearText d.year).toList ++ '-' :: ((padded 2 d.month).toList ++ '-' :: (padded 2 d.day).toList)

theorem daysInMonth_le (year : Int) (month : Nat) : Date.daysInMonth year month ≤ 31 := by
  unfold Date.daysInMonth
  split
  · split <;> decide
  · split <;> decide

theorem readDate_dateChars {d : Date} (h : d.isValid = true) (rest : List Char) :
    readDate (dateChars d ++ rest) = some (d, rest) := by
  have hvalid := h
  simp only [Date.isValid, Bool.and_eq_true, decide_eq_true_eq] at hvalid
  have hday := Nat.le_trans hvalid.2 (daysInMonth_le d.year d.month)
  simp only [dateChars, List.append_assoc, List.cons_append, readDate]
  have hmonth := readField_pair (n := d.month) (by omega)
  have hday := readField_pair (n := d.day) (by omega)
  have hmark := readMark_self (c := '-') (by decide)
  rw [readYear_yearText d.year (by simp)]
  simp only [Option.bind_eq_bind, Option.bind_some, hmark, hmonth, hday]
  exact if_pos h

theorem readFraction_fractionText {nanos : Nat} (h : nanos < Nanos.perSecond) {rest : List Char}
    (hd : Stops Char.isDigit rest) (hp : Stops (· == '.') rest) :
    readFraction ((fractionText nanos).toList ++ rest) = some (nanos, rest) := by
  have hperSecond : Nanos.perSecond = 10 ^ 9 := rfl
  -- `width` digits of a value in units of `10 ^ (9 - width)` nanoseconds
  have hdigits (width n : Nat) (hw : 0 < width) (h9 : width ≤ 9) (hn : n < 10 ^ width) :
      readFraction ('.' :: ((padded width n).toList ++ rest))
        = some (n * tenTo (9 - width), rest) := by
    have hlen := length_padded hw hn
    have hpadded : ∀ c ∈ (padded width n).toList, c.isDigit = true := fun _ => isDigit_of_mem_padded
    have htake := takeWhile_append hpadded hd
    have h9' : (padded width n).toList.take 9 = (padded width n).toList :=
      List.take_of_length_le (by omega)
    simp only [readFraction, htake, h9', hlen, digitsValue_padded, List.drop_left' hlen]
    simp [padded_ne_empty hw]
  unfold fractionText
  split
  · next h0 =>
    subst h0
    cases rest with
    | nil => rfl
    | cons c rest =>
      have hc : c ≠ '.' := by simpa using hp
      simp only [String.toList_empty, List.nil_append]
      unfold readFraction
      split
      · next heq => exact absurd (List.cons.inj heq).1 hc
      · rfl
  split
  · next hms =>
    have := hdigits 3 (nanos / 1000000) (by decide) (by decide) (by omega)
    simp only [String.toList_append, String.reduceToList, List.cons_append, List.nil_append, this]
    simp
    omega
  split
  · next hus =>
    have := hdigits 6 (nanos / 1000) (by decide) (by decide) (by omega)
    simp only [String.toList_append, String.reduceToList, List.cons_append, List.nil_append, this]
    simp
    omega
  · have := hdigits 9 nanos (by decide) (by decide) (by omega)
    simp only [String.toList_append, String.reduceToList, List.cons_append, List.nil_append, this]
    simp

/-- The digits of a time with colons between its parts. -/
def timeChars (hour minute second nanos : Nat) : List Char :=
  (padded 2 hour).toList ++ ':' :: ((padded 2 minute).toList ++ ':' ::
    ((padded 2 second).toList ++ (fractionText nanos).toList))

theorem readTime_timeChars {hour minute second nanos : Nat} (hh : hour < 24) (hm : minute < 60)
    (hs : second ≤ 60) (hn : nanos < Nanos.perSecond) {rest : List Char}
    (hd : Stops Char.isDigit rest) (hp : Stops (· == '.') rest) :
    readTime (timeChars hour minute second nanos ++ rest) = some
      (if second = 60 then (hour * 3600 + minute * 60 + 59, Nanos.perSecond + nanos)
        else (hour * 3600 + minute * 60 + second, nanos), rest) := by
  simp only [timeChars, List.append_assoc, List.cons_append, readTime]
  have hhour := readField_pair (n := hour) (by omega)
  have hminute := readField_pair (n := minute) (by omega)
  have hsecond := readField_pair (n := second) (by omega)
  have hmark := readMark_self (c := ':') (by decide)
  simp only [Option.bind_eq_bind, Option.bind_some, hmark, hhour, hminute, hsecond,
    readFraction_fractionText hn hd hp, hh, hm, hs, decide_true, Bool.and_self, if_true]
  split <;> rfl

/-! ### Timestamps -/

/-- The date of the timestamp. -/
def date (t : Timestamp) : Date := Date.ofDays (t.seconds / secondsPerDay)

/-- The second of the day. -/
def daySecond (t : Timestamp) : Nat := (t.seconds % secondsPerDay).toNat

/-- The second of the minute and the nanoseconds, a leap second being second 60. -/
def minuteSecond (t : Timestamp) : Nat × Nat :=
  if t.nanos ≥ Nanos.perSecond then (t.daySecond % 60 + 1, t.nanos - Nanos.perSecond)
  else (t.daySecond % 60, t.nanos)

theorem toList_text (t : Timestamp) : t.text.toList = dateChars t.date ++ 'T' ::
    (timeChars (t.daySecond / 3600) (t.daySecond / 60 % 60) t.minuteSecond.1 t.minuteSecond.2
      ++ ['Z']) := by
  simp only [text, parts, dateChars, timeChars, date, minuteSecond, daySecond]
  split <;> simp

theorem isValid_date {t : Timestamp} (h : t.Valid) : t.date.isValid = true := by
  have hrange := h.inRange
  simp only [inRange, Bool.and_eq_true, decide_eq_true_eq] at hrange
  simp only [minSeconds, maxSeconds, secondsPerDay] at hrange
  exact Date.isValid_ofDays (by simp only [secondsPerDay]; omega) (by simp only [secondsPerDay]; omega)

theorem daySecond_lt (t : Timestamp) : t.daySecond < 86400 := by
  simp only [daySecond, secondsPerDay]
  omega

theorem hours_minutes_seconds (s : Nat) : s / 3600 * 3600 + s / 60 % 60 * 60 + s % 60 = s := by
  have hhour : s / 3600 = s / 60 / 60 := by rw [Nat.div_div_eq_div_mul]
  omega

/-- The second of the minute is 60 only in a leap second. -/
theorem minuteSecond_spec {t : Timestamp} (h : t.Valid) :
    t.minuteSecond.1 ≤ 60 ∧ t.minuteSecond.2 < Nanos.perSecond ∧
      (if t.minuteSecond.1 = 60 then (t.daySecond / 3600 * 3600 + t.daySecond / 60 % 60 * 60 + 59,
          Nanos.perSecond + t.minuteSecond.2)
        else (t.daySecond / 3600 * 3600 + t.daySecond / 60 % 60 * 60 + t.minuteSecond.1,
          t.minuteSecond.2)) = (t.daySecond, t.nanos) := by
  have hnanos := h.nanos
  have hsum := hours_minutes_seconds t.daySecond
  by_cases hleap : t.nanos ≥ Nanos.perSecond
  · have h59 : t.daySecond % 60 = 59 := by
      have := h.leap hleap
      simp only [daySecond, secondsPerDay]
      omega
    rw [h59] at hsum
    simp only [minuteSecond, hleap, if_true, h59, Prod.mk.injEq]
    exact ⟨by decide, by omega, hsum, by omega⟩
  · have hlt : t.daySecond % 60 < 60 := Nat.mod_lt _ (by decide)
    simp only [minuteSecond, hleap, if_false, Nat.ne_of_lt hlt, Prod.mk.injEq]
    exact ⟨by omega, by omega, hsum, trivial⟩

theorem ofText?_text {t : Timestamp} (h : t.Valid) : ofText? t.text = some t := by
  obtain ⟨h60, hnanos, htime⟩ := minuteSecond_spec h
  have hday := t.daySecond_lt
  have hhour : t.daySecond / 3600 < 24 := by omega
  have hminute : t.daySecond / 60 % 60 < 60 := by omega
  have hread := readTime_timeChars hhour hminute h60 hnanos
    (show Stops Char.isDigit ['Z'] by simp) (by simp)
  have hsum : t.date.toDays * secondsPerDay + t.daySecond - 0 = t.seconds := by
    simp only [date, Date.toDays_ofDays, daySecond, secondsPerDay]
    omega
  have hskip : skipBlanks ['Z'] = ['Z'] := by decide
  rw [htime] at hread
  rw [ofText?, toList_text, readDate_dateChars (isValid_date h)]
  simp only [Option.bind_eq_bind, Option.bind_some, hread, hskip, readOffset, hsum]
  simp [skipBlanks, h.inRange]

/-! ### What is read -/

theorem readFraction_lt {cs rest : List Char} {nanos : Nat}
    (h : readFraction cs = some (nanos, rest)) : nanos < Nanos.perSecond := by
  unfold readFraction at h
  split at h
  · next r =>
    simp only at h
    split at h
    · cases h
    · cases h
      have hkept : ((r.takeWhile Char.isDigit).take 9).length ≤ 9 := List.length_take_le ..
      have hlt : digitsValue ((r.takeWhile Char.isDigit).take 9)
          < 10 ^ ((r.takeWhile Char.isDigit).take 9).length :=
        digitsValue_lt fun c hc => List.all_eq_true.1 List.all_takeWhile c (List.mem_of_mem_take hc)
      calc _ < 10 ^ ((r.takeWhile Char.isDigit).take 9).length
            * 10 ^ (9 - ((r.takeWhile Char.isDigit).take 9).length) :=
          Nat.mul_lt_mul_of_pos_right hlt (Nat.pow_pos (by decide))
        _ = Nanos.perSecond := by
          rw [← Nat.pow_add, Nat.add_sub_of_le hkept]
          rfl
  · cases h
    decide

theorem readTime_leap {cs rest : List Char} {secs nanos : Nat}
    (h : readTime cs = some ((secs, nanos), rest)) :
    nanos < 2 * Nanos.perSecond ∧ (Nanos.perSecond ≤ nanos → secs % 60 = 59) := by
  simp only [readTime, Option.bind_eq_bind, Option.bind_eq_some_iff, Prod.exists] at h
  obtain ⟨hour, _, -, _, -, minute, _, -, _, -, second, _, -, fraction, _, hf, h⟩ := h
  have hlt := readFraction_lt hf
  split at h
  · split at h
    · cases h
      omega
    · cases h
      omega
  · cases h

theorem readHours_mod {sign : Int} {cs rest : List Char} {offset : Int}
    (h : readOffset.readHours sign cs = some (offset, rest)) : offset % 60 = 0 := by
  unfold readOffset.readHours at h
  split at h
  · split at h
    · simp only at h
      split at h
      · cases h
        exact Int.emod_eq_zero_of_dvd (Int.dvd_trans (by omega) (Int.dvd_mul_left ..))
      · cases h
    · cases h
  · cases h

theorem readOffset_mod {cs rest : List Char} {offset : Int}
    (h : readOffset cs = some (offset, rest)) : offset % 60 = 0 := by
  unfold readOffset at h
  split at h
  · cases h
    rfl
  · cases h
    rfl
  · exact readHours_mod h
  · exact readHours_mod h
  · exact readHours_mod h
  · split at h
    · cases h
      rfl
    · cases h

theorem valid_of_ofText? {s : String} {t : Timestamp} (h : ofText? s = some t) : t.Valid := by
  obtain ⟨⟨date, cs⟩, -, h⟩ := Option.bind_eq_some_iff.1 h
  simp only at h
  split at h
  case h_4 => cases h
  all_goals
    obtain ⟨_, -, h⟩ := Option.bind_eq_some_iff.1 h
    obtain ⟨⟨⟨secs, nanos⟩, _⟩, htime, h⟩ := Option.bind_eq_some_iff.1 h
    obtain ⟨⟨offset, cs⟩, hoffset, h⟩ := Option.bind_eq_some_iff.1 h
    obtain ⟨hnanos, hleap⟩ := readTime_leap htime
    have hmod := readOffset_mod hoffset
    simp only [Option.ite_none_right_eq_some, Option.some.injEq, Bool.and_eq_true] at h
    obtain ⟨⟨-, hrange⟩, rfl⟩ := h
    refine ⟨hrange, hnanos, fun hle => ?_⟩
    have := hleap hle
    simp only [secondsPerDay]
    omega

theorem ofJson?_toJson {t : Timestamp} (h : t.Valid) : ofJson? t.toJson = some t := by
  simp only [ofJson?, toJson, Json.toText?, Option.bind_some, ofText?_text h]

theorem valid_of_ofJson? {j : Json} {t : Timestamp} (h : ofJson? j = some t) : t.Valid := by
  obtain ⟨s, _, hs⟩ := Option.bind_eq_some_iff.1 h
  exact valid_of_ofText? hs

end DurableWorkflow.Timestamp

import DurableWorkflow.Text.Blank
import DurableWorkflow.Text.Digits
import Mathlib.Algebra.Group.Nat.Defs
import Mathlib.Data.List.Forall2
import Mathlib.Order.Basic

/-!
# Written digits read back

A number written in base ten is a row of digits whose value is the number, with or without zeros in
front; a digit of base sixteen has the value it was written for. A row of digits is taken whole where
what follows it begins with no digit.
-/

namespace DurableWorkflow.Text

/-! ### What follows -/

/-- The characters do not begin with one of `p`. -/
def Stops (p : Char → Bool) (cs : List Char) : Prop := ∀ c ∈ cs.head?, p c = false

@[simp] theorem stops_nil (p : Char → Bool) : Stops p [] := by simp [Stops]

@[simp] theorem stops_cons {p : Char → Bool} {c : Char} {cs : List Char} :
    Stops p (c :: cs) ↔ p c = false := by simp [Stops]

theorem Stops.mono {p q : Char → Bool} (h : ∀ c, p c = true → q c = true) {cs : List Char}
    (hs : Stops q cs) : Stops p cs := by
  intro c hc
  have := hs c hc
  cases hp : p c with
  | false => rfl
  | true => simp [h c hp] at this

theorem takeWhile_append_stops {p : Char → Bool} (cs : List Char) {rest : List Char}
    (hr : Stops p rest) : (cs ++ rest).takeWhile p = cs.takeWhile p := by
  induction cs with
  | nil =>
    cases rest with
    | nil => rfl
    | cons c rest => simp [stops_cons.1 hr]
  | cons c cs ih =>
    cases hc : p c <;> simp [hc, ih]

theorem dropWhile_append_stops {p : Char → Bool} (cs : List Char) {rest : List Char}
    (hr : Stops p rest) : (cs ++ rest).dropWhile p = cs.dropWhile p ++ rest := by
  induction cs with
  | nil =>
    cases rest with
    | nil => rfl
    | cons c rest => simp [stops_cons.1 hr]
  | cons c cs ih =>
    cases hc : p c <;> simp [hc, ih]

theorem takeWhile_append {p : Char → Bool} {ds rest : List Char} (hd : ∀ c ∈ ds, p c = true)
    (hr : Stops p rest) : (ds ++ rest).takeWhile p = ds := by
  rw [takeWhile_append_stops ds hr]
  have hall : (ds ++ []).takeWhile p = ds ++ [].takeWhile p := List.takeWhile_append_of_pos hd
  simpa using hall

theorem dropWhile_append {p : Char → Bool} {ds rest : List Char} (hd : ∀ c ∈ ds, p c = true)
    (hr : Stops p rest) : (ds ++ rest).dropWhile p = rest := by
  rw [dropWhile_append_stops ds hr, List.append_left_eq_self]
  have hall : (ds ++ []).dropWhile p = [].dropWhile p := List.dropWhile_append_of_pos hd
  simpa using hall

theorem dropWhile_eq_self {p : Char → Bool} {rest : List Char} (hr : Stops p rest) :
    rest.dropWhile p = rest := by
  simpa using dropWhile_append_stops [] hr

/-! ### No blanks -/

theorem isBlank_of_isDigit {c : Char} (h : c.isDigit = true) : isBlank c = false := by
  have hc : 48 ≤ c.toNat ∧ c.toNat ≤ 57 := by
    simpa [Char.isDigit, UInt32.le_iff_toNat_le] using h
  simp only [isBlank, Bool.or_eq_false_iff, Bool.and_eq_false_iff, decide_eq_false_iff_not,
    beq_eq_false_iff_ne]
  omega

theorem skipBlanks_of_digits {ds rest : List Char} (hd : ∀ c ∈ ds, c.isDigit = true)
    (hne : ds ≠ []) : skipBlanks (ds ++ rest) = ds ++ rest := by
  cases ds with
  | nil => exact absurd rfl hne
  | cons d ds => exact dropWhile_eq_self (by simpa using isBlank_of_isDigit (hd d (by simp)))

/-! ### Base ten -/

theorem toList_toString (n : Nat) : (toString n).toList = Nat.toDigits 10 n := Nat.toList_repr

theorem isDigit_of_mem_toDigits {n : Nat} {c : Char} (h : c ∈ Nat.toDigits 10 n) :
    c.isDigit = true := Nat.isDigit_of_mem_toDigits (by decide) (by decide) h

theorem digitsValue_eq (cs : List Char) : digitsValue cs = Nat.ofDigitChars 10 cs 0 := by
  rw [Nat.ofDigitChars_eq_foldl]
  rfl

@[simp] theorem digitsValue_toDigits (n : Nat) : digitsValue (Nat.toDigits 10 n) = n := by
  rw [digitsValue_eq, Nat.ofDigitChars_ten_toDigits]

theorem digitsValue_lt {ds : List Char} (h : ∀ c ∈ ds, c.isDigit = true) :
    digitsValue ds < 10 ^ ds.length := by
  rw [digitsValue_eq]
  induction ds with
  | nil => simp
  | cons d ds ih =>
    have hd : d.toNat ≤ 57 := by
      have := h d (by simp)
      simp only [Char.isDigit, Bool.and_eq_true, decide_eq_true_eq, UInt32.le_iff_toNat_le] at this
      exact this.2
    have hrest := ih fun c hc => h c (by simp [hc])
    rw [Nat.ofDigitChars_cons, Nat.ofDigitChars_eq_ofDigitChars_zero, List.length_cons, Nat.pow_succ]
    calc 10 ^ ds.length * (10 * 0 + (d.toNat - '0'.toNat)) + Nat.ofDigitChars 10 ds 0
        < 10 ^ ds.length * (10 * 0 + (d.toNat - '0'.toNat)) + 10 ^ ds.length := by omega
      _ = 10 ^ ds.length * (d.toNat - '0'.toNat + 1) := by
        rw [Nat.mul_zero, Nat.zero_add, Nat.mul_succ]
      _ ≤ 10 ^ ds.length * 10 := Nat.mul_le_mul_left _ (by simp only [Char.reduceToNat]; omega)

theorem toList_padded (width n : Nat) : (padded width n).toList =
    List.replicate (width - (Nat.toDigits 10 n).length) '0' ++ Nat.toDigits 10 n := by
  simp only [padded, String.toList_append, String.toList_ofList, toList_toString,
    ← String.length_toList]

theorem isDigit_of_mem_padded {width n : Nat} {c : Char} (h : c ∈ (padded width n).toList) :
    c.isDigit = true := by
  rw [toList_padded, List.mem_append] at h
  obtain h | h := h
  · rw [(List.mem_replicate.1 h).2]
    rfl
  · exact isDigit_of_mem_toDigits h

@[simp] theorem digitsValue_padded (width n : Nat) : digitsValue (padded width n).toList = n := by
  rw [toList_padded, digitsValue_eq, Nat.ofDigitChars_append, Nat.ofDigitChars_replicate_zero,
    Nat.mul_zero, Nat.ofDigitChars_ten_toDigits]

theorem length_padded {width n : Nat} (hw : 0 < width) (h : n < 10 ^ width) :
    (padded width n).toList.length = width := by
  have := (Nat.length_toDigits_le_iff (b := 10) (by decide) hw).2 h
  simp only [toList_padded, List.length_append, List.length_replicate]
  omega

theorem width_le_length_padded (width n : Nat) : width ≤ (padded width n).toList.length := by
  simp only [toList_padded, List.length_append, List.length_replicate]
  omega

/-! ### Base sixteen -/

theorem hexValue?_hexDigit (n : Nat) : hexValue? (hexDigit n) = some (n % 16) := by
  have h : ∀ m < 16, hexValue? ("0123456789abcdef".toList.getD m '0') = some m := by decide
  exact h _ (Nat.mod_lt n (by decide))

end DurableWorkflow.Text

/-!
### The order of written numbers

Numbers that are written with the same number of digits are in the order of what is written, in base
ten as in base sixteen. So are rows of such numbers with the same marks between them
(`written_lt_written`).
-/

namespace DurableWorkflow.Text

/-! ### Rows of characters -/

/-- What follows matters only where rows of the same length are the same. -/
theorem append_lt_append {a b : List Char} (h : a.length = b.length) (c d : List Char) :
    a ++ c < b ++ d ↔ a < b ∨ a = b ∧ c < d := by
  induction a generalizing b with
  | nil =>
    obtain rfl := List.eq_nil_of_length_eq_zero h.symm
    simp
  | cons x a ih =>
    cases b with
    | nil => simp at h
    | cons y b =>
      have hlength : a.length = b.length := by simpa using h
      simp only [List.cons_append, List.cons_lt_cons_iff, ih hlength, List.cons.injEq]
      tauto

theorem prefix_lt_prefix (a : List Char) {c d : List Char} : a ++ c < a ++ d ↔ c < d := by
  rw [append_lt_append rfl]
  simp [List.lt_irrefl]

theorem char_lt_iff {c d : Char} : c < d ↔ c.toNat < d.toNat := UInt32.lt_iff_toNat_lt

/-! ### Digits -/

theorem digitsValue_cons (c : Char) (cs : List Char) :
    digitsValue (c :: cs) = (c.toNat - '0'.toNat) * 10 ^ cs.length + digitsValue cs := by
  rw [digitsValue_eq, digitsValue_eq, Nat.ofDigitChars_cons, Nat.ofDigitChars_eq_ofDigitChars_zero,
    Nat.mul_zero, Nat.zero_add, Nat.mul_comm]

theorem le_of_isDigit {c : Char} (h : c.isDigit = true) : 48 ≤ c.toNat := by
  simp only [Char.isDigit, Bool.and_eq_true, decide_eq_true_eq, UInt32.le_iff_toNat_le] at h
  exact h.1

/-- Digits are in the order of their values. -/
theorem digits_lt_digits {ds es : List Char} (hlength : ds.length = es.length)
    (hds : ∀ c ∈ ds, c.isDigit = true) (hes : ∀ c ∈ es, c.isDigit = true) :
    ds < es ↔ digitsValue ds < digitsValue es := by
  induction ds generalizing es with
  | nil =>
    obtain rfl := List.eq_nil_of_length_eq_zero hlength.symm
    simp
  | cons d ds ih =>
    cases es with
    | nil => simp at hlength
    | cons e es =>
      have hsame : ds.length = es.length := by simpa using hlength
      have hd := le_of_isDigit (hds d (by simp))
      have he := le_of_isDigit (hes e (by simp))
      have hrest := ih hsame (fun c hc => hds c (by simp [hc])) fun c hc => hes c (by simp [hc])
      have hdlt : digitsValue ds < 10 ^ es.length :=
        hsame ▸ digitsValue_lt fun c hc => hds c (by simp [hc])
      have helt : digitsValue es < 10 ^ es.length := digitsValue_lt fun c hc => hes c (by simp [hc])
      have hzero : '0'.toNat = 48 := rfl
      rw [List.cons_lt_cons_iff, hrest, digitsValue_cons, digitsValue_cons, hsame, hzero,
        char_lt_iff]
      rcases Nat.lt_trichotomy d.toNat e.toNat with hlt | heq | hgt
      · have : (d.toNat - 48 + 1) * 10 ^ es.length ≤ (e.toNat - 48) * 10 ^ es.length :=
          Nat.mul_le_mul_right _ (by omega)
        rw [Nat.succ_mul] at this
        exact ⟨fun _ => by omega, fun _ => .inl hlt⟩
      · have hchar : d = e := Char.toNat_inj.1 heq
        subst hchar
        simp
      · have : (e.toNat - 48 + 1) * 10 ^ es.length ≤ (d.toNat - 48) * 10 ^ es.length :=
          Nat.mul_le_mul_right _ (by omega)
        rw [Nat.succ_mul] at this
        refine ⟨fun h => ?_, fun h => by omega⟩
        rcases h with h | ⟨rfl, -⟩
        · omega
        · omega

theorem padded_lt_padded {width m n : Nat} (hw : 0 < width) (hm : m < 10 ^ width)
    (hn : n < 10 ^ width) : (padded width m).toList < (padded width n).toList ↔ m < n := by
  have hlength : (padded width m).toList.length = (padded width n).toList.length := by
    rw [length_padded hw hm, length_padded hw hn]
  rw [digits_lt_digits hlength (fun _ => isDigit_of_mem_padded) fun _ => isDigit_of_mem_padded,
    digitsValue_padded, digitsValue_padded]

theorem hexDigit_lt_hexDigit (m n : Nat) : hexDigit m < hexDigit n ↔ m % 16 < n % 16 := by
  have h : ∀ a < 16, ∀ b < 16, "0123456789abcdef".toList.getD a '0' <
      "0123456789abcdef".toList.getD b '0' ↔ a < b := by decide
  exact h _ (Nat.mod_lt m (by decide)) _ (Nat.mod_lt n (by decide))

/-- The order of numbers is that of their higher digits, and of the lower ones where these agree. -/
theorem mod_lt_mod_iff {a b c : Nat} (hc : c = a * b) (ha : 0 < a) (m n : Nat) :
    m % c < n % c ↔ m / a % b < n / a % b ∨ m / a % b = n / a % b ∧ m % a < n % a := by
  have hm := Nat.mod_lt m ha
  have hn := Nat.mod_lt n ha
  rw [hc, Nat.mod_mul, Nat.mod_mul]
  rcases Nat.lt_trichotomy (m / a % b) (n / a % b) with hlt | heq | hgt
  · have := Nat.mul_le_mul_left a hlt
    rw [Nat.mul_succ] at this
    omega
  · rw [heq]
    omega
  · have := Nat.mul_le_mul_left a hgt
    rw [Nat.mul_succ] at this
    omega

/-! ### Numbers with marks between them -/

/-- How a number below a bound is written, and the mark that follows it. -/
structure Field where
  write : Nat → List Char
  width : Nat
  bound : Nat
  mark : List Char
  length_write : ∀ n < bound, (write n).length = width
  write_lt_write : ∀ m < bound, ∀ n < bound, (write m < write n ↔ m < n)

namespace Field

/-- So many digits of base ten. -/
def decimal (width : Nat) (mark : List Char) (h : 0 < width := by decide) : Field where
  write n := (padded width n).toList
  width := width
  bound := 10 ^ width
  mark := mark
  length_write _ hn := length_padded h hn
  write_lt_write _ hm _ hn := padded_lt_padded h hm hn

variable (f : Field) {m n : Nat} {rest rest' : List Char}

theorem write_injective (hm : m < f.bound) (hn : n < f.bound) (h : f.write m = f.write n) :
    m = n := by
  rcases Nat.lt_trichotomy m n with hlt | heq | hgt
  · exact absurd (h ▸ (f.write_lt_write m hm n hn).2 hlt) (List.lt_irrefl _)
  · exact heq
  · exact absurd (h ▸ (f.write_lt_write n hn m hm).2 hgt) (List.lt_irrefl _)

theorem lt_iff (hm : m < f.bound) (hn : n < f.bound) :
    f.write m ++ (f.mark ++ rest) < f.write n ++ (f.mark ++ rest') ↔
      m < n ∨ m = n ∧ rest < rest' := by
  have hlength : (f.write m).length = (f.write n).length := by
    rw [f.length_write m hm, f.length_write n hn]
  rw [append_lt_append hlength, prefix_lt_prefix, f.write_lt_write m hm n hn]
  constructor
  · rintro (h | ⟨h, hrest⟩)
    · exact .inl h
    · exact .inr ⟨f.write_injective hm hn h, hrest⟩
  · rintro (h | ⟨rfl, hrest⟩)
    · exact .inl h
    · exact .inr ⟨rfl, hrest⟩

end Field

/-- A row of numbers, each in its field. -/
def written : List Field → List Nat → List Char
  | f :: fs, n :: ns => f.write n ++ (f.mark ++ written fs ns)
  | _, _ => []

/-- The numbers fit their fields. -/
abbrev Fit (fs : List Field) (ns : List Nat) : Prop := List.Forall₂ (fun f n => n < f.bound) fs ns

/-- What is written is in the order of the numbers, of which the first counts most. -/
theorem written_lt_written {fs : List Field} {ms ns : List Nat} (hms : Fit fs ms)
    (hns : Fit fs ns) : written fs ms < written fs ns ↔ ms < ns := by
  induction hms generalizing ns with
  | nil =>
    cases hns
    exact ⟨fun h => absurd h (List.lt_irrefl _), fun h => absurd h (List.lt_irrefl _)⟩
  | @cons f m fs ms hm _ ih =>
    cases hns with
    | @cons _ n _ ns hn hns => rw [written, written, f.lt_iff hm hn, ih hns, List.cons_lt_cons_iff]

end DurableWorkflow.Text

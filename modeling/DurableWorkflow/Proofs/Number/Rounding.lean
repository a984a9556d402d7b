import DurableWorkflow.Number.Binary64
import Mathlib.Algebra.Order.Field.Power
import Mathlib.Algebra.Order.Ring.Abs
import Mathlib.Data.Nat.Log
import Mathlib.Tactic.FieldSimp
import Mathlib.Tactic.Linarith
import Mathlib.Tactic.Ring

/-!
# How far rounding goes

A quotient that is rounded to a binary64 number moves by at most half a unit in its last place, and
a natural number of at most 53 bits does not move at all. The size of the unit follows from the size
of the quotient, so the error of a product of rounded numbers can be read off their sizes.
-/

namespace DurableWorkflow.Binary64

/-- The rational number `m · 2 ^ e`. -/
def value (m : Nat) (e : Int) : ℚ := m * 2 ^ e

@[simp] theorem value_zero (e : Int) : value 0 e = 0 := by simp [value]

theorem value_mul (m n : Nat) (e f : Int) : value (m * n) (e + f) = value m e * value n f := by
  rw [value, value, value, zpow_add₀ two_ne_zero, Nat.cast_mul]
  ring

/-- The two mantissas of a power of two at the edge. -/
theorem value_carry (e : Int) : value (twoTo 52) (e + 1) = value (twoTo 53) e := by
  rw [value, value, zpow_add_one₀ two_ne_zero]
  norm_num
  ring

/-! ### Fractions -/

theorem scaled_snd_pos (n : Nat) (e : Int) : 0 < (scaled n e).2 := by
  unfold scaled
  split
  · exact Nat.pow_pos (by decide)
  · exact Nat.one_pos

theorem scaled_fst_pos {n : Nat} (hn : 0 < n) (e : Int) : 0 < (scaled n e).1 := by
  unfold scaled
  split
  · exact hn
  · exact Nat.mul_pos hn (Nat.pow_pos (by decide))

/-- A scaled number as a fraction has the value of the number. -/
theorem scaled_value (n : Nat) (e : Int) : ((scaled n e).1 : ℚ) / (scaled n e).2 = value n e := by
  unfold scaled value
  split
  · next he =>
    obtain ⟨k, rfl⟩ := Int.exists_eq_neg_ofNat (Int.le_of_lt he)
    simp only [neg_neg, Int.toNat_natCast, zpow_neg, zpow_natCast, twoTo, Nat.pow_eq, Nat.cast_pow,
      Nat.cast_ofNat]
    rw [div_eq_mul_inv]
  · next he =>
    obtain ⟨k, rfl⟩ := Int.eq_ofNat_of_zero_le (Int.not_lt.1 he)
    simp

/-! ### Quotients -/

/-- The rounded quotient is at most half away from the quotient. -/
theorem divNearestEven_near (n : Nat) {d : Nat} (hd : 0 < d) :
    |(divNearestEven n d : ℚ) - n / d| ≤ 1 / 2 := by
  have hd' : (0 : ℚ) < d := by exact_mod_cast hd
  have hn : (n : ℚ) = d * (n / d : Nat) + (n % d : Nat) := by exact_mod_cast (Nat.div_add_mod n d).symm
  have hquot : (n : ℚ) / d = (n / d : Nat) + ((n % d : Nat) : ℚ) / d := by
    rw [hn]
    field_simp
  have hr : (n % d : Nat) < d := Nat.mod_lt n hd
  unfold divNearestEven
  dsimp only
  rw [hquot]
  split
  · next hup =>
    have hhalf : d ≤ 2 * (n % d) := by
      simp only [Bool.or_eq_true, Bool.and_eq_true, decide_eq_true_eq, beq_iff_eq] at hup
      omega
    have hlow : 1 / 2 ≤ ((n % d : Nat) : ℚ) / d := by
      rw [div_le_div_iff₀ two_pos hd']
      exact_mod_cast (by omega : 1 * d ≤ n % d * 2)
    have hhigh : ((n % d : Nat) : ℚ) / d ≤ 1 := by
      rw [div_le_iff₀ hd', one_mul]
      exact_mod_cast Nat.le_of_lt hr
    push_cast
    rw [abs_le]
    constructor <;> linarith
  · next hdown =>
    have hhalf : 2 * (n % d) ≤ d := by
      simp only [Bool.or_eq_true, Bool.and_eq_true, decide_eq_true_eq, beq_iff_eq] at hdown
      omega
    have hhigh : ((n % d : Nat) : ℚ) / d ≤ 1 / 2 := by
      rw [div_le_div_iff₀ hd' two_pos]
      exact_mod_cast (by omega : n % d * 2 ≤ 1 * d)
    have hlow : 0 ≤ ((n % d : Nat) : ℚ) / d := div_nonneg (Nat.cast_nonneg _) hd'.le
    rw [abs_le]
    constructor <;> linarith

@[simp] theorem divNearestEven_one (n : Nat) : divNearestEven n 1 = n := by
  simp [divNearestEven, Nat.mod_one]

/-! ### The exponent -/

/-- A quotient of positive numbers is within a factor of two of the quotient of their powers. -/
theorem two_zpow_log_lt {n d : Nat} (hn : 0 < n) (hd : 0 < d) :
    (2 : ℚ) ^ ((n.log2 : Int) - (d.log2 : Int) - 1) < n / d := by
  have hd' : (0 : ℚ) < d := by exact_mod_cast hd
  have hlow : (2 : ℚ) ^ n.log2 ≤ n := by exact_mod_cast Nat.log2_self_le hn.ne'
  have hhigh : (d : ℚ) < 2 ^ (d.log2 + 1) := by exact_mod_cast Nat.lt_log2_self (n := d)
  rw [lt_div_iff₀ hd']
  calc (2 : ℚ) ^ ((n.log2 : Int) - (d.log2 : Int) - 1) * d
      < (2 : ℚ) ^ ((n.log2 : Int) - (d.log2 : Int) - 1) * 2 ^ (d.log2 + 1) := by gcongr
    _ = 2 ^ n.log2 := by
      rw [← zpow_natCast, ← zpow_add₀ two_ne_zero, ← zpow_natCast]
      congr 1
      push_cast
      ring
    _ ≤ n := hlow

/-- The exponent is bounded from below, and else depends on the bits of the quotient. -/
theorem ratioExponent_eq (n d : Nat) : ratioExponent n d = minExponent ∨
    ratioExponent n d =
      if n * (scaled d ((n.log2 : Int) - (d.log2 : Int) - 53)).2
          < (scaled d ((n.log2 : Int) - (d.log2 : Int) - 53)).1 * twoTo 53
      then (n.log2 : Int) - (d.log2 : Int) - 53 else (n.log2 : Int) - (d.log2 : Int) - 53 + 1 := by
  by_cases h : ratioExponent n d = minExponent
  · exact .inl h
  · refine .inr ?_
    unfold ratioExponent at h ⊢
    exact if_neg fun hmin => h (if_pos hmin)

/-- The exponent leaves at least 53 bits in the mantissa, unless it is the smallest one. -/
theorem two_zpow_ratioExponent_le {n d : Nat} (hn : 0 < n) (hd : 0 < d) :
    ratioExponent n d = minExponent ∨ (2 : ℚ) ^ (ratioExponent n d + 52) ≤ n / d := by
  have hd' : (0 : ℚ) < d := by exact_mod_cast hd
  set e : Int := (n.log2 : Int) - (d.log2 : Int) - 53 with he
  -- without the bound from below
  have hfree : (2 : ℚ) ^ ((if n * (scaled d e).2 < (scaled d e).1 * twoTo 53 then e else e + 1) + 52)
      ≤ n / d := by
    split
    · have hlog := two_zpow_log_lt hn hd
      rw [show e + 52 = (n.log2 : Int) - (d.log2 : Int) - 1 by omega]
      exact hlog.le
    · next hfull =>
      -- here the quotient fills 54 bits above the exponent `e`
      have hb : (0 : ℚ) < (scaled d e).2 := by exact_mod_cast scaled_snd_pos d e
      have hle : ((scaled d e).1 : ℚ) * 2 ^ 53 ≤ n * (scaled d e).2 := by
        exact_mod_cast Nat.not_lt.1 hfull
      have hvalue : value d e * 2 ^ 53 ≤ n := by
        rw [← scaled_value, div_mul_eq_mul_div, div_le_iff₀ hb]
        exact hle
      rw [le_div_iff₀ hd']
      calc (2 : ℚ) ^ (e + 1 + 52) * d = value d e * 2 ^ 53 := by
            rw [value, show e + 1 + 52 = e + (53 : Nat) by push_cast; ring, zpow_add₀ two_ne_zero,
              zpow_natCast]
            ring
        _ ≤ n := hvalue
  rcases ratioExponent_eq n d with hmin | heq
  · exact .inl hmin
  · exact .inr (heq ▸ hfree)

/-! ### Rounding -/

/-- The exponent of a quotient below `2 ^ k`. -/
theorem ratioExponent_le {n d : Nat} (hn : 0 < n) (hd : 0 < d) {k : Int}
    (hmin : minExponent + 53 ≤ k) (h : (n : ℚ) / d < 2 ^ k) : ratioExponent n d + 53 ≤ k := by
  have hcases := two_zpow_ratioExponent_le hn hd
  generalize ratioExponent n d = e at hcases ⊢
  rcases hcases with rfl | hle
  · exact hmin
  · have hlt : e + 52 < k := (zpow_lt_zpow_iff_right₀ one_lt_two).1 (lt_of_le_of_lt hle h)
    omega

/-- What a number is rounded to, with the exponent it is rounded at. -/
theorem ofRatio_finite {n d : Nat} (negative : Bool) (hn : 0 < n)
    (h : ratioExponent n d < maxExponent) : ∃ m e, ofRatio negative n d = .finite negative m e ∧
      value m e = value (divNearestEven (n * (scaled d (ratioExponent n d)).2)
        (scaled d (ratioExponent n d)).1) (ratioExponent n d) := by
  unfold ofRatio
  rw [if_neg hn.ne']
  extract_lets f
  -- opened by hand: the parts of the pair are not to be computed
  rcases hab : scaled d f with ⟨a, b⟩
  rw [show ratioExponent n d = f from rfl]
  dsimp only
  generalize divNearestEven (n * b) a = q
  by_cases hcarry : q = twoTo 53
  · rw [if_pos hcarry]
    refine ⟨twoTo 52, f + 1, if_neg (by omega), ?_⟩
    rw [hcarry, value_carry]
  · rw [if_neg hcarry]
    exact ⟨q, f, if_neg (by omega), rfl⟩

/-- A quotient below `2 ^ k` moves by at most `2 ^ (k - 54)`. -/
theorem ofRatio_near (negative : Bool) (n : Nat) {d : Nat} (hd : 0 < d) {k : Int}
    (hmin : minExponent + 53 ≤ k) (hmax : k ≤ maxExponent) (h : (n : ℚ) / d < 2 ^ k) :
    ∃ m e, ofRatio negative n d = .finite negative m e ∧ |value m e - n / d| ≤ 2 ^ (k - 54) := by
  rcases Nat.eq_zero_or_pos n with rfl | hn
  · refine ⟨0, minExponent, rfl, ?_⟩
    simp only [value_zero, Nat.cast_zero, zero_div, sub_zero, abs_zero]
    positivity
  have hle := ratioExponent_le hn hd hmin h
  obtain ⟨m, e, hround, hvalue⟩ := ofRatio_finite (d := d) negative hn (by omega)
  refine ⟨m, e, hround, ?_⟩
  rw [hvalue]
  set f := ratioExponent n d
  have ha : (0 : ℚ) < (scaled d f).1 := by exact_mod_cast scaled_fst_pos hd f
  have hb : (0 : ℚ) < (scaled d f).2 := by exact_mod_cast scaled_snd_pos d f
  have hd' : (0 : ℚ) < d := by exact_mod_cast hd
  have hf : (0 : ℚ) < 2 ^ f := by positivity
  have hscale : (n * (scaled d f).2 : ℚ) / (scaled d f).1 * 2 ^ f = n / d := by
    have heq : ((scaled d f).1 : ℚ) = d * 2 ^ f * (scaled d f).2 := by
      rw [← div_eq_iff hb.ne']
      exact scaled_value d f
    rw [heq]
    field_simp
  have hnear := divNearestEven_near (n * (scaled d f).2) (scaled_fst_pos hd f)
  push_cast at hnear
  calc |value (divNearestEven (n * (scaled d f).2) (scaled d f).1) f - n / d|
      = |(divNearestEven (n * (scaled d f).2) (scaled d f).1 : ℚ)
          - n * (scaled d f).2 / (scaled d f).1| * 2 ^ f := by
        rw [← hscale, value, ← sub_mul, abs_mul, abs_of_pos hf]
    _ ≤ 1 / 2 * 2 ^ f := by gcongr
    _ = 2 ^ (f - 1) := by rw [zpow_sub_one₀ two_ne_zero]; ring
    _ ≤ 2 ^ (k - 54) := zpow_le_zpow_right₀ one_le_two (by omega)

/-- A natural number of at most 53 bits stays as it is. -/
theorem ofRatio_one (negative : Bool) {n : Nat} (h : n < 2 ^ 53) :
    ∃ m e, ofRatio negative n 1 = .finite negative m e ∧ value m e = n := by
  rcases Nat.eq_zero_or_pos n with rfl | hn
  · exact ⟨0, minExponent, rfl, by simp⟩
  have hle : ratioExponent n 1 + 53 ≤ 53 := by
    refine ratioExponent_le hn Nat.one_pos (by decide) ?_
    rw [Nat.cast_one, div_one]
    exact_mod_cast h
  obtain ⟨m, e, hround, hvalue⟩ := ofRatio_finite (d := 1) negative hn
    (Int.lt_of_le_of_lt (by omega : ratioExponent n 1 ≤ 0) (by decide))
  refine ⟨m, e, hround, ?_⟩
  rw [hvalue]
  set f := ratioExponent n 1
  have hone : (scaled 1 f).1 = 1 := by
    unfold scaled
    split
    · rfl
    · next hf =>
      rw [show f = 0 by omega]
      rfl
  have hscaled := scaled_value 1 f
  rw [hone, Nat.cast_one, div_eq_iff (by exact_mod_cast (scaled_snd_pos 1 f).ne')] at hscaled
  rw [hone, divNearestEven_one, value]
  push_cast
  rw [value, Nat.cast_one, one_mul] at hscaled
  rw [mul_assoc, mul_comm _ ((2 : ℚ) ^ f), ← hscaled, mul_one]

/-! ### To whole numbers -/

/-- Rounding a number that is less than a half away from a whole one of at most 53 bits. -/
theorem roundHalfAway_near {m n : Nat} {e : Int} (hn : n < 2 ^ 53) (h : |value m e - n| < 1 / 2) :
    ∃ m' e', (finite false m e).roundHalfAway = .finite false m' e' ∧ value m' e' = n := by
  have hb : 0 < (scaled m e).2 := scaled_snd_pos m e
  have hb' : (0 : ℚ) < (scaled m e).2 := by exact_mod_cast hb
  have hwhole : (2 * (scaled m e).1 + (scaled m e).2) / (2 * (scaled m e).2) = n := by
    rw [← scaled_value, abs_lt] at h
    obtain ⟨hlow, hhigh⟩ := h
    have hlow' : ((2 * n * (scaled m e).2 : Nat) : ℚ) < (2 * (scaled m e).1 + (scaled m e).2 : Nat) := by
      have := (lt_div_iff₀ hb').1 (by linarith : (n : ℚ) - 1 / 2 < (scaled m e).1 / (scaled m e).2)
      push_cast
      linarith
    have hhigh' : ((2 * (scaled m e).1 : Nat) : ℚ) < (2 * n * (scaled m e).2 + (scaled m e).2 : Nat) := by
      have := (div_lt_iff₀ hb').1 (by linarith : ((scaled m e).1 : ℚ) / (scaled m e).2 < n + 1 / 2)
      push_cast
      linarith
    have hlow'' : 2 * n * (scaled m e).2 < 2 * (scaled m e).1 + (scaled m e).2 := by
      exact_mod_cast hlow'
    have hhigh'' : 2 * (scaled m e).1 < 2 * n * (scaled m e).2 + (scaled m e).2 := by
      exact_mod_cast hhigh'
    have heq : n * (2 * (scaled m e).2) = 2 * n * (scaled m e).2 := by ring
    have hsucc : (n + 1) * (2 * (scaled m e).2) = 2 * n * (scaled m e).2 + 2 * (scaled m e).2 := by
      ring
    refine Nat.div_eq_of_lt_le ?_ ?_
    · omega
    · omega
  unfold roundHalfAway
  dsimp only
  rw [hwhole]
  exact ofRatio_one false hn

theorem toNatClamped_finite {m n limit : Nat} {e : Int} (hn : n ≤ limit) (h : value m e = n) :
    (finite false m e).toNatClamped limit = n := by
  have hb' : ((scaled m e).2 : ℚ) ≠ 0 := by exact_mod_cast (scaled_snd_pos m e).ne'
  have heq : (scaled m e).1 = n * (scaled m e).2 := by
    rw [← scaled_value, div_eq_iff hb'] at h
    exact_mod_cast h
  unfold toNatClamped
  dsimp only
  rw [heq, Nat.mul_div_cancel _ (scaled_snd_pos m e)]
  simpa using hn

end DurableWorkflow.Binary64

import Mathlib
import Treewalk.Binary64

/-!
A decimal is rounded to the number nearest to it. The numbers without a sign are in the order of
their bits, so the nearest one is on one side or the other of the mantissa that is cut off, and the
carry of a mantissa goes on to the next number.
-/

namespace Treewalk.Binary64

open Float.Model.UnpackedFloat (pack_unpack_of_valid unpackExponent_def unpackMantissa_def)

theorem hiddenBit_eq : hiddenBit = 4503599627370496 := rfl
theorem infinityBits_eq : infinityBits = 9218868437227405312 := rfl

def magnitude (bits : ℕ) : ℚ :=
  (bits - (bits / hiddenBit - 1) * hiddenBit : ℕ) * 2 ^ (minExponent + (bits / hiddenBit - 1 : ℕ))

theorem magnitude_add {s m : ℕ} (hm : m ≤ 2 * hiddenBit) (hs : s = 0 ∨ hiddenBit ≤ m) :
    magnitude (s * hiddenBit + m) = m * 2 ^ (minExponent + s) := by
  rw [hiddenBit_eq] at hm hs
  unfold magnitude
  rw [hiddenBit_eq]
  by_cases hcarry : m = 2 * 4503599627370496
  · have hdiv : (s * 4503599627370496 + m) / 4503599627370496 - 1 = s + 1 := by omega
    have hmod : s * 4503599627370496 + m - (s + 1) * 4503599627370496 = 4503599627370496 := by omega
    rw [hdiv, hmod, hcarry]
    push_cast
    rw [← add_assoc, zpow_add_one₀ (by norm_num)]
    ring
  · have hdiv : (s * 4503599627370496 + m) / 4503599627370496 - 1 = s := by omega
    have hmod : s * 4503599627370496 + m - s * 4503599627370496 = m := by omega
    rw [hdiv, hmod]

theorem exists_parts (b : ℕ) : ∃ s m, b = s * hiddenBit + m ∧ m < 2 * hiddenBit ∧
    (s = 0 ∨ hiddenBit ≤ m) := by
  rw [hiddenBit_eq]
  exact ⟨b / 4503599627370496 - 1, b - (b / 4503599627370496 - 1) * 4503599627370496, by omega,
    by omega, by omega⟩

theorem strictMono_magnitude : StrictMono magnitude := by
  apply strictMono_nat_of_lt_succ
  intro b
  obtain ⟨s, m, rfl, hm, hs⟩ := exists_parts b
  have hnext : magnitude (s * hiddenBit + m + 1) = (m + 1 : ℕ) * 2 ^ (minExponent + s) := by
    rw [add_assoc]
    exact magnitude_add hm (by omega)
  rw [magnitude_add hm.le hs, hnext]
  gcongr
  omega

/-- Of two values `v` is the one nearer to `q`. Only with a mantissa that is even may the other one
be equally near. -/
def Nearer (q v : ℚ) (even : Prop) (w : ℚ) : Prop :=
  |v - q| ≤ |w - q| ∧ (w ≠ v → |v - q| = |w - q| → even)

theorem nearest_of_between {g : ℕ → ℚ} (hg : StrictMono g) {k r : ℕ} {q : ℚ} (hlo : g k ≤ q)
    (hhi : q ≤ g (k + 1))
    (hr : r = k ∧ q - g k ≤ g (k + 1) - q ∨ r = k + 1 ∧ g (k + 1) - q ≤ q - g k)
    (heven : q - g k = g (k + 1) - q → Even r) (j : ℕ) : Nearer q (g r) (Even r) (g j) := by
  have hj : g j ≤ g k ∨ g (k + 1) ≤ g j := by
    obtain h | h := Nat.lt_or_ge k j
    · exact .inr (hg.monotone h)
    · exact .inl (hg.monotone h)
  have hdist : |g j - q| = q - g j ∧ g j ≤ g k ∨ |g j - q| = g j - q ∧ g (k + 1) ≤ g j := by
    obtain h | h := hj
    · exact .inl ⟨abs_sub_comm (g j) q ▸ abs_of_nonneg (by linarith), h⟩
    · exact .inr ⟨abs_of_nonneg (by linarith), h⟩
  rw [Nearer]
  obtain ⟨rfl, hr⟩ | ⟨rfl, hr⟩ := hr
  · rw [abs_sub_comm (g r), abs_of_nonneg (sub_nonneg.mpr hlo)]
    obtain ⟨h, hle⟩ | ⟨h, hle⟩ := hdist
    · exact ⟨by linarith, fun hne htie => absurd (by linarith) hne⟩
    · exact ⟨by linarith, fun _ htie => heven (by linarith)⟩
  · rw [abs_of_nonneg (sub_nonneg.mpr hhi)]
    obtain ⟨h, hle⟩ | ⟨h, hle⟩ := hdist
    · exact ⟨by linarith, fun _ htie => heven (by linarith)⟩
    · exact ⟨by linarith, fun hne htie => absurd (by linarith) hne⟩

theorem roundHalfEven_between {n d : ℕ} (hd : 0 < d) :
    ((n / d : ℕ) : ℚ) ≤ n / d ∧ (n / d : ℚ) ≤ (n / d : ℕ) + 1 ∧
      (roundHalfEven n d = n / d ∧ (n / d : ℚ) - (n / d : ℕ) ≤ (n / d : ℕ) + 1 - n / d ∨
        roundHalfEven n d = n / d + 1 ∧ ((n / d : ℕ) + 1 - n / d : ℚ) ≤ n / d - (n / d : ℕ)) ∧
      ((n / d : ℚ) - (n / d : ℕ) = (n / d : ℕ) + 1 - n / d → Even (roundHalfEven n d)) := by
  have hd' : (0 : ℚ) < d := by exact_mod_cast hd
  have hquot : (n : ℚ) / d = (n / d : ℕ) + (n % d : ℕ) / d := by
    have hdiv : (n : ℚ) = d * (n / d : ℕ) + (n % d : ℕ) := by
      exact_mod_cast (Nat.div_add_mod n d).symm
    rw [div_eq_iff hd'.ne', add_mul, div_mul_cancel₀ _ hd'.ne', mul_comm, ← hdiv]
  have hpart : (n % d : ℕ) / (d : ℚ) < 1 := by
    rw [div_lt_one hd']
    exact_mod_cast Nat.mod_lt n hd
  have hpart' : (0 : ℚ) ≤ (n % d : ℕ) / (d : ℚ) := by positivity
  have hhalf : (n % d : ℕ) / (d : ℚ) * 2 = (2 * (n % d) : ℕ) / (d : ℚ) := by
    push_cast
    ring
  rw [hquot]
  refine ⟨by linarith, by linarith, ?_, fun htie => ?_⟩
  · simp only [roundHalfEven]
    split
    · next h =>
      have : (2 * (n % d) : ℕ) / (d : ℚ) < 1 := by
        rw [div_lt_one hd']
        exact_mod_cast h
      exact .inl ⟨rfl, by linarith⟩
    · next h =>
      have hge : 1 ≤ (2 * (n % d) : ℕ) / (d : ℚ) := by
        rw [one_le_div hd']
        exact_mod_cast Nat.le_of_not_lt h
      split
      · exact .inr ⟨rfl, by linarith⟩
      · next h' =>
        have hle : (2 * (n % d) : ℕ) / (d : ℚ) ≤ 1 := by
          rw [div_le_one hd']
          exact_mod_cast Nat.le_of_not_lt h'
        obtain hmod | hmod := Nat.mod_two_eq_zero_or_one (n / d)
        · exact .inl ⟨by rw [hmod, Nat.add_zero], by linarith⟩
        · exact .inr ⟨by rw [hmod], by linarith⟩
  · have hone : (2 * (n % d) : ℕ) / (d : ℚ) = 1 := by linarith
    rw [div_eq_one_iff_eq hd'.ne'] at hone
    have hone : 2 * (n % d) = d := by exact_mod_cast hone
    rw [roundHalfEven, if_neg (by omega), if_neg (by omega), Nat.even_iff]
    omega

theorem pow2_eq (n : ℕ) : pow2 n = 2 ^ n := rfl

theorem scaled_pos {den : ℕ} (hden : 0 < den) (num : ℕ) (e : ℤ) : 0 < (scaled num den e).2 :=
  Nat.mul_pos hden (Nat.pow_pos Nat.two_pos)

theorem scaled_eq (num den : ℕ) (e : ℤ) :
    ((scaled num den e).1 : ℚ) / (scaled num den e).2 * 2 ^ e = num / den := by
  simp only [scaled, pow2_eq]
  push_cast
  obtain ⟨n, rfl | rfl⟩ := e.eq_nat_or_neg
  · rw [Int.toNat_natCast, Int.toNat_neg_natCast, pow_zero, mul_one, zpow_natCast]
    field_simp
  · rw [neg_neg, Int.toNat_natCast, Int.toNat_neg_natCast, pow_zero, mul_one, zpow_neg,
      zpow_natCast]
    field_simp

theorem quotient_log2 {num den : ℕ} (hnum : 0 < num) (hden : 0 < den) :
    (2 : ℚ) ^ ((num.log2 : ℤ) - den.log2 - 1) ≤ num / den ∧
      (num / den : ℚ) < 2 ^ ((num.log2 : ℤ) - den.log2 + 1) := by
  have hden' : (0 : ℚ) < den := by exact_mod_cast hden
  have hnumlo : (2 : ℚ) ^ (num.log2 : ℤ) ≤ num := by
    exact_mod_cast Nat.log2_self_le hnum.ne'
  have hnumhi : (num : ℚ) < 2 ^ ((num.log2 : ℤ) + 1) := by exact_mod_cast Nat.lt_log2_self
  have hdenlo : (2 : ℚ) ^ (den.log2 : ℤ) ≤ den := by exact_mod_cast Nat.log2_self_le hden.ne'
  have hdenhi : (den : ℚ) < 2 ^ ((den.log2 : ℤ) + 1) := by exact_mod_cast Nat.lt_log2_self
  constructor
  · rw [le_div_iff₀ hden']
    calc (2 : ℚ) ^ ((num.log2 : ℤ) - den.log2 - 1) * den
        ≤ 2 ^ ((num.log2 : ℤ) - den.log2 - 1) * 2 ^ ((den.log2 : ℤ) + 1) := by gcongr
      _ = 2 ^ (num.log2 : ℤ) := by
        rw [← zpow_add₀ two_ne_zero]
        congr 1
        omega
      _ ≤ num := hnumlo
  · rw [div_lt_iff₀ hden']
    calc (num : ℚ) < 2 ^ ((num.log2 : ℤ) + 1) := hnumhi
      _ = 2 ^ ((num.log2 : ℤ) - den.log2 + 1) * 2 ^ (den.log2 : ℤ) := by
        rw [← zpow_add₀ two_ne_zero]
        congr 1
        omega
      _ ≤ 2 ^ ((num.log2 : ℤ) - den.log2 + 1) * den := by gcongr

theorem scaled_lt_iff {den : ℕ} (hden : 0 < den) (num : ℕ) (e : ℤ) (k : ℕ) :
    (scaled num den e).1 < 2 ^ k * (scaled num den e).2 ↔ (num / den : ℚ) < 2 ^ (e + k) := by
  have hpos : (0 : ℚ) < (scaled num den e).2 := by exact_mod_cast scaled_pos hden num e
  rw [zpow_add₀ two_ne_zero, mul_comm (2 ^ e : ℚ), ← scaled_eq num den e,
    mul_lt_mul_iff_left₀ (by positivity), div_lt_iff₀ hpos]
  norm_cast

theorem two_mul_hiddenBit : 2 * hiddenBit = 2 ^ 53 := rfl

theorem exponentOf_spec {num den : ℕ} (hnum : 0 < num) (hden : 0 < den) :
    minExponent ≤ exponentOf num den ∧ (num / den : ℚ) < 2 ^ (exponentOf num den + 53) ∧
      (exponentOf num den = minExponent ∨ 2 ^ (exponentOf num den + 52) ≤ (num / den : ℚ)) := by
  obtain ⟨hlo, hhi⟩ := quotient_log2 hnum hden
  simp only [exponentOf, two_mul_hiddenBit, scaled_lt_iff hden]
  split
  · next h =>
    refine ⟨le_max_left _ _, h, ?_⟩
    obtain hmax | hmax := max_choice minExponent ((num.log2 : ℤ) - den.log2 - 53)
    · exact .inl hmax
    · right
      rw [hmax]
      convert hlo using 2
      omega
  · next h =>
    refine ⟨by omega, hhi.trans_le ?_, .inr ?_⟩
    · exact zpow_le_zpow_right₀ one_le_two (by omega)
    · refine le_of_eq_of_le ?_ (not_lt.mp h)
      rw [add_assoc]
      rfl

theorem nearestBits_parts {num den : ℕ} (hnum : 0 < num) (hden : 0 < den) :
    ∃ s n d : ℕ, 0 < d ∧ (num / den : ℚ) = n / d * 2 ^ (minExponent + s) ∧
      n / d < 2 * hiddenBit ∧ (s = 0 ∨ hiddenBit ≤ n / d) ∧
      nearestBits num den = min infinityBits (s * hiddenBit + roundHalfEven n d) := by
  obtain ⟨hmin, hlt, hnormal⟩ := exponentOf_spec hnum hden
  obtain ⟨s, hs⟩ := Int.eq_ofNat_of_zero_le (Int.sub_nonneg.mpr hmin)
  have he : exponentOf num den = minExponent + s := by omega
  have hpos := scaled_pos hden num (exponentOf num den)
  refine ⟨s, (scaled num den (exponentOf num den)).1, _, hpos, ?_, ?_, ?_, ?_⟩
  · rw [← he, scaled_eq]
  · rw [Nat.div_lt_iff_lt_mul hpos, two_mul_hiddenBit, scaled_lt_iff hden]
    exact hlt
  · obtain h | h := hnormal
    · exact .inl (by omega)
    · right
      rw [Nat.le_div_iff_mul_le hpos]
      exact le_of_not_gt (mt (scaled_lt_iff hden num _ 52).mp (not_lt.mpr h))
  · simp only [nearestBits, if_neg hnum.ne', hs, Int.toNat_natCast]

theorem even_hiddenBit_mul_add (s r : ℕ) : Even (s * hiddenBit + r) ↔ Even r := by
  rw [Nat.even_add, Nat.even_mul, hiddenBit_eq]
  simp [show Even 4503599627370496 by decide]

theorem magnitude_zero : magnitude 0 = 0 := by simp [magnitude]

theorem magnitude_nearestBits {den : ℕ} (hden : 0 < den) (num : ℕ) {j : ℕ} (hj : j ≤ infinityBits) :
    Nearer (num / den) (magnitude (nearestBits num den)) (Even (nearestBits num den))
      (magnitude j) := by
  obtain rfl | hnum := Nat.eq_zero_or_pos num
  · simp [Nearer, nearestBits, magnitude_zero]
  obtain ⟨s, n, d, hd, hq, hlt, hs, hbits⟩ := nearestBits_parts hnum hden
  obtain ⟨hlo, hhi, hround, heven⟩ := roundHalfEven_between (n := n) hd
  have hunit : (0 : ℚ) < 2 ^ (minExponent + s) := by positivity
  have hk : magnitude (s * hiddenBit + n / d) = (n / d : ℕ) * 2 ^ (minExponent + s) :=
    magnitude_add hlt.le hs
  have hk' : magnitude (s * hiddenBit + n / d + 1) = ((n / d : ℕ) + 1) * 2 ^ (minExponent + s) := by
    rw [add_assoc, magnitude_add hlt (by omega)]
    push_cast
    rfl
  have hbelow : num / den - magnitude (s * hiddenBit + n / d) =
      (n / d - (n / d : ℕ) : ℚ) * 2 ^ (minExponent + s) := by rw [hq, hk, sub_mul]
  have habove : magnitude (s * hiddenBit + n / d + 1) - num / den =
      ((n / d : ℕ) + 1 - n / d : ℚ) * 2 ^ (minExponent + s) := by rw [hq, hk', sub_mul]
  have hle : magnitude (s * hiddenBit + n / d) ≤ num / den := by
    rw [← sub_nonneg, hbelow]
    exact mul_nonneg (sub_nonneg.mpr hlo) hunit.le
  rw [hbits]
  obtain hover | hin := Nat.lt_or_ge infinityBits (s * hiddenBit + roundHalfEven n d)
  · -- The quotient is not below infinity.
    have hround := roundHalfEven_eq_or n d
    have hinf : magnitude infinityBits ≤ num / den :=
      (strictMono_magnitude.monotone (by omega)).trans hle
    have hj : magnitude j ≤ magnitude infinityBits := strictMono_magnitude.monotone hj
    rw [Nearer, min_eq_left hover.le, abs_sub_comm, abs_of_nonneg (sub_nonneg.mpr hinf),
      abs_sub_comm, abs_of_nonneg (sub_nonneg.mpr (hj.trans hinf))]
    exact ⟨by linarith, fun hne htie => absurd (by linarith) hne⟩
  · rw [min_eq_right hin]
    refine nearest_of_between strictMono_magnitude hle ?_ ?_ ?_ j
    · rw [← sub_nonneg, habove]
      exact mul_nonneg (sub_nonneg.mpr hhi) hunit.le
    · rw [hbelow, habove, mul_le_mul_iff_left₀ hunit, mul_le_mul_iff_left₀ hunit, Nat.add_assoc,
        Nat.add_left_cancel_iff, Nat.add_left_cancel_iff]
      exact hround
    · rw [hbelow, habove, mul_left_inj' hunit.ne', even_hiddenBit_mul_add]
      exact heven

def sign? : Binary64 → Option Bool
  | nan => none
  | infinite negative => some negative
  | finite negative _ _ => some negative

def signed (negative : Bool) (q : ℚ) : ℚ := if negative then -q else q

/-- The value of a number. Infinity counts as the power of two behind the largest finite number. -/
def value : Binary64 → ℚ
  | nan => 0
  | infinite negative => signed negative (2 ^ 1024)
  | finite negative mantissa exponent => signed negative (mantissa * 2 ^ exponent)

def HasEvenMantissa : Binary64 → Prop
  | nan => False
  | infinite _ => True
  | finite _ mantissa _ => Even mantissa

theorem magnitude_infinityBits : magnitude infinityBits = 2 ^ 1024 := by
  have h := magnitude_add (s := 2046) (m := hiddenBit) (by omega) (.inr le_rfl)
  have hexp : minExponent + (2046 : ℕ) = (972 : ℕ) := rfl
  have hsplit : infinityBits = 2046 * hiddenBit + hiddenBit := rfl
  rw [hsplit, h, hexp, zpow_natCast, pow_add 2 52 972, hiddenBit_eq]
  norm_num only

theorem ne_nan_of_sign? {x : Binary64} (h : x.sign? = some negative) : x ≠ nan := by
  rintro rfl
  cases h

variable {u : UInt64}

theorem ofBits_eq (u : UInt64) :
    ofBits u =
      if u.toNat / 4503599627370496 % 2048 = 2047 then
        if u.toNat % 4503599627370496 = 0 then infinite (u.toNat / 2 ^ 63 == 1) else nan
      else if u.toNat / 4503599627370496 % 2048 = 0 then
        finite (u.toNat / 2 ^ 63 == 1) (u.toNat % 4503599627370496) minExponent
      else
        finite (u.toNat / 2 ^ 63 == 1) (4503599627370496 + u.toNat % 4503599627370496)
          (minExponent + (u.toNat / 4503599627370496 % 2048 - 1 : ℕ)) := rfl

theorem ofBits_cases (h : u.toNat % 2 ^ 63 ≤ infinityBits) :
    (ofBits u = infinite (u.toNat / 2 ^ 63 == 1) ∧ u.toNat % 2 ^ 63 = infinityBits) ∨
      ∃ s m : ℕ, ofBits u = finite (u.toNat / 2 ^ 63 == 1) m (minExponent + s) ∧
        u.toNat % 2 ^ 63 = s * hiddenBit + m ∧ m < 2 * hiddenBit ∧ (s = 0 ∨ hiddenBit ≤ m) := by
  rw [infinityBits_eq] at h
  rw [ofBits_eq, infinityBits_eq, hiddenBit_eq]
  by_cases hinf : u.toNat / 4503599627370496 % 2048 = 2047
  · have hzero : u.toNat % 4503599627370496 = 0 := by omega
    rw [if_pos hinf, if_pos hzero]
    exact .inl ⟨rfl, by omega⟩
  · rw [if_neg hinf]
    right
    by_cases hsub : u.toNat / 4503599627370496 % 2048 = 0
    · rw [if_pos hsub]
      exact ⟨0, _, rfl, by omega, by omega, .inl rfl⟩
    · rw [if_neg hsub]
      exact ⟨_, _, rfl, by omega, by omega, .inr (by omega)⟩

theorem ofBits_eq_nan (h : infinityBits < u.toNat % 2 ^ 63) : ofBits u = .nan := by
  rw [infinityBits_eq] at h
  rw [ofBits_eq, if_pos (by omega), if_neg (by omega)]

theorem sign?_ofBits (h : u.toNat % 2 ^ 63 ≤ infinityBits) :
    (ofBits u).sign? = some (u.toNat / 2 ^ 63 == 1) := by
  obtain ⟨hu, -⟩ | ⟨s, m, hu, -⟩ := ofBits_cases h <;> rw [hu] <;> rfl

theorem value_ofBits (h : u.toNat % 2 ^ 63 ≤ infinityBits) :
    (ofBits u).value = signed (u.toNat / 2 ^ 63 == 1) (magnitude (u.toNat % 2 ^ 63)) := by
  obtain ⟨hu, hb⟩ | ⟨s, m, hu, hb, hm, hs⟩ := ofBits_cases h
  · rw [hu, hb, magnitude_infinityBits]
    rfl
  · rw [hu, hb, magnitude_add hm.le hs]
    rfl

theorem hasEvenMantissa_ofBits (h : u.toNat % 2 ^ 63 ≤ infinityBits) :
    (ofBits u).HasEvenMantissa ↔ Even (u.toNat % 2 ^ 63) := by
  obtain ⟨hu, hb⟩ | ⟨s, m, hu, hb, -⟩ := ofBits_cases h
  · rw [hu, hb, infinityBits_eq]
    exact iff_of_true trivial (by decide)
  · rw [hu, hb, even_hiddenBit_mul_add]
    rfl

/-- Of all numbers `x` is the one nearest to `q`, and it has no minus sign. -/
structure IsNearest (x : Float) (q : ℚ) : Prop where
  sign : (ofFloat x).sign? = some false
  nearer : ∀ y : Float, ofFloat y ≠ nan →
    Nearer q (ofFloat x).value (ofFloat x).HasEvenMantissa (ofFloat y).value

theorem valid_of_le {u : UInt64} (h : u.toNat % 2 ^ 63 ≤ infinityBits) :
    Float.Model.Format.binary64.Valid u.toBitVec := by
  refine ⟨fun hexponent hmantissa => absurd ?_ hmantissa⟩
  rw [unpackExponent_def, ← BitVec.toNat_inj, BitVec.extractLsb'_toNat] at hexponent
  rw [unpackMantissa_def, ← BitVec.toNat_inj, BitVec.extractLsb'_toNat]
  change u.toNat >>> 52 % 2 ^ 11 = 2047 at hexponent
  change u.toNat >>> 0 % 2 ^ 52 = 0
  rw [Nat.shiftRight_eq_div_pow] at hexponent ⊢
  rw [infinityBits_eq] at h
  omega

theorem toBits_ofBits {u : UInt64} (h : u.toNat % 2 ^ 63 ≤ infinityBits) :
    (Float.ofBits u).toBits = u :=
  UInt64.toBitVec_inj.mp (pack_unpack_of_valid (valid_of_le h))

theorem toNat_ofNat_bits {b : ℕ} (hb : b ≤ infinityBits) : (UInt64.ofNat b).toNat = b := by
  rw [infinityBits_eq] at hb
  rw [UInt64.toNat_ofNat']
  omega

theorem ofFloat_ofBits {b : ℕ} (hb : b ≤ infinityBits) :
    let x := ofFloat (Float.ofBits (UInt64.ofNat b))
    x.sign? = some false ∧ x.value = magnitude b ∧ (x.HasEvenMantissa ↔ Even b) := by
  have hnat := toNat_ofNat_bits hb
  have hmod : b % 2 ^ 63 = b := by
    rw [infinityBits_eq] at hb
    omega
  have hsign : (b / 2 ^ 63 == 1) = false := by
    rw [beq_eq_false_iff_ne]
    omega
  have hbits : (UInt64.ofNat b).toNat % 2 ^ 63 ≤ infinityBits := by rwa [hnat, hmod]
  have hsign' := sign?_ofBits hbits
  have hvalue := value_ofBits hbits
  have heven := hasEvenMantissa_ofBits hbits
  rw [hnat, hsign] at hsign' hvalue
  rw [hnat, hmod] at heven
  rw [hmod] at hvalue
  rw [ofFloat, toBits_ofBits hbits]
  exact ⟨hsign', hvalue, heven⟩

theorem le_of_ofFloat {y : Float} (hy : ofFloat y ≠ .nan) :
    y.toBits.toNat % 2 ^ 63 ≤ infinityBits := by
  by_contra h
  exact hy (ofBits_eq_nan (Nat.lt_of_not_le h))

theorem magnitude_nonneg (b : ℕ) : 0 ≤ magnitude b :=
  magnitude_zero ▸ strictMono_magnitude.monotone b.zero_le

theorem zero_nearer {q v : ℚ} (hq : 0 ≤ q) (hv : 0 ≤ v) :
    |magnitude 0 - q| ≤ |-v - q| ∧ (|magnitude 0 - q| = |-v - q| → v = 0) := by
  rw [magnitude_zero, zero_sub, abs_neg, abs_of_nonneg hq, ← neg_add', abs_neg,
    abs_of_nonneg (add_nonneg hv hq)]
  exact ⟨by linarith, fun h => by linarith⟩

theorem isNearest_of_nearer {b : ℕ} {q : ℚ} (hb : b ≤ infinityBits) (hq : 0 ≤ q)
    (h : ∀ j ≤ infinityBits, Nearer q (magnitude b) (Even b) (magnitude j)) :
    IsNearest (Float.ofBits (UInt64.ofNat b)) q := by
  obtain ⟨hsign, hvalue, heven⟩ := ofFloat_ofBits hb
  refine ⟨hsign, fun y hy => ?_⟩
  have hle := le_of_ofFloat hy
  rw [hvalue, heven, ofFloat, value_ofBits hle]
  cases y.toBits.toNat / 2 ^ 63 == 1 with
  | false => exact h _ hle
  | true =>
    obtain ⟨hnear, htie⟩ := h 0 (Nat.zero_le infinityBits)
    obtain ⟨hzero, heq⟩ := zero_nearer hq (magnitude_nonneg (y.toBits.toNat % 2 ^ 63))
    refine ⟨hnear.trans hzero, fun hne h => ?_⟩
    have hsame := le_antisymm hzero (h ▸ hnear)
    refine htie ?_ (h.trans hsame.symm)
    rw [signed, if_pos rfl, heq hsame, neg_zero] at hne
    rwa [magnitude_zero]

theorem isNearest_nearest {den : ℕ} (hden : 0 < den) (num : ℕ) :
    IsNearest (nearest num den) (num / den) :=
  isNearest_of_nearer (nearestBits_le num den) (by positivity)
    fun _ hj => magnitude_nearestBits hden num hj

theorem exists_bits {x : Float} (hx : (ofFloat x).sign? = some false) :
    ∃ b ≤ infinityBits, x = Float.ofBits (UInt64.ofNat b) := by
  have hle := le_of_ofFloat (ne_nan_of_sign? hx)
  rw [ofFloat, sign?_ofBits hle] at hx
  have hsign : x.toBits.toNat / 2 ^ 63 ≠ 1 := beq_eq_false_iff_ne.mp (Option.some.inj hx)
  have hlt := x.toBits.toNat_lt
  have hmod : x.toBits.toNat % 2 ^ 63 = x.toBits.toNat := by omega
  refine ⟨x.toBits.toNat, hmod ▸ hle, ?_⟩
  rw [UInt64.ofNat_toNat, Float.ofBits_toBits]

theorem nearer_between {x y z q : ℚ} (hxy : x < y) (hyz : y < z) (h : |x - q| = |z - q|) :
    |y - q| < |x - q| := by
  obtain ⟨hx, hx'⟩ | ⟨hx, hx'⟩ := abs_cases (x - q) <;>
    obtain ⟨hz, hz'⟩ | ⟨hz, hz'⟩ := abs_cases (z - q) <;>
    rw [hx, hz] at h <;> rw [hx, abs_lt] <;> constructor <;> linarith

theorem IsNearest.le_bits {a b : ℕ} {q : ℚ} (ha : a ≤ infinityBits) (hb : b ≤ infinityBits)
    (hx : IsNearest (Float.ofBits (UInt64.ofNat a)) q)
    (hy : IsNearest (Float.ofBits (UInt64.ofNat b)) q) : b ≤ a := by
  by_contra! hlt
  obtain ⟨hsa, hva, hea⟩ := ofFloat_ofBits ha
  obtain ⟨hsb, hvb, heb⟩ := ofFloat_ofBits hb
  obtain ⟨hsnext, hvnext, -⟩ := ofFloat_ofBits (hlt.trans_le hb : a + 1 ≤ infinityBits)
  obtain ⟨hle, heven⟩ := hx.nearer _ (ne_nan_of_sign? hsb)
  obtain ⟨hge, heven'⟩ := hy.nearer _ (ne_nan_of_sign? hsa)
  obtain ⟨hnext, -⟩ := hx.nearer _ (ne_nan_of_sign? hsnext)
  rw [hva, hvb] at hle heven hge heven'
  rw [hva, hvnext] at hnext
  have hdist := le_antisymm hle hge
  have hval : magnitude b ≠ magnitude a := (strictMono_magnitude hlt).ne'
  have ha : Even a := hea.mp (heven hval hdist)
  have hb : Even b := heb.mp (heven' hval.symm hdist.symm)
  have hgap : a + 1 < b := by
    rw [Nat.even_iff] at ha hb
    omega
  have hmore := nearer_between (strictMono_magnitude a.lt_succ_self) (strictMono_magnitude hgap)
    hdist
  exact absurd hnext (not_le.mpr hmore)

theorem IsNearest.unique {x y : Float} {q : ℚ} (hx : IsNearest x q) (hy : IsNearest y q) :
    x = y := by
  obtain ⟨a, ha, rfl⟩ := exists_bits hx.sign
  obtain ⟨b, hb, rfl⟩ := exists_bits hy.sign
  rw [le_antisymm (hy.le_bits hb ha hx) (hx.le_bits ha hb hy)]

end Treewalk.Binary64

import Treewalk.Decimal.Shortest
import Treewalk.Proofs.Binary64.Signs

namespace Treewalk.Decimal

def value (d : Decimal) : ℚ := d.digits * 10 ^ d.exponent

theorem cast_pow2 (n : ℕ) : (pow2 n : ℚ) = 2 ^ n := by
  rw [pow2, Nat.pow_eq, Nat.cast_pow, Nat.cast_ofNat]

theorem cast_pow10 (n : ℕ) : (pow10 n : ℚ) = 10 ^ n := by
  rw [pow10, Nat.pow_eq, Nat.cast_pow, Nat.cast_ofNat]

theorem zpow_toNat {a : ℚ} (ha : a ≠ 0) (e : ℤ) : a ^ e.toNat = a ^ e * a ^ (-e).toNat := by
  obtain ⟨n, rfl | rfl⟩ := e.eq_nat_or_neg
  · simp
  · simp [ha]

theorem exists_common (n : ℕ) (e : ℤ) (m : ℕ) (k : ℤ) : ∃ c : ℚ, 0 < c ∧
    ((common n e m k).1 : ℚ) = n * 2 ^ e * c ∧ ((common n e m k).2 : ℚ) = m * 10 ^ k * c := by
  refine ⟨2 ^ (-e).toNat * 10 ^ (-k).toNat, by positivity, ?_, ?_⟩
  · simp only [common, cast_pow2, cast_pow10, Nat.cast_mul]
    rw [zpow_toNat two_ne_zero e]
    ring
  · simp only [common, cast_pow2, cast_pow10, Nat.cast_mul]
    rw [zpow_toNat (by norm_num : (10 : ℚ) ≠ 0) k]
    ring

section Common

variable {n m : ℕ} {e k : ℤ}

theorem common_le : (common n e m k).1 ≤ (common n e m k).2 ↔ (n * 2 ^ e : ℚ) ≤ m * 10 ^ k := by
  obtain ⟨c, hc, hn, hm⟩ := exists_common n e m k
  rw [← Nat.cast_le (α := ℚ), hn, hm, mul_le_mul_iff_left₀ hc]

theorem common_ge : (common n e m k).2 ≤ (common n e m k).1 ↔ (m * 10 ^ k : ℚ) ≤ n * 2 ^ e := by
  obtain ⟨c, hc, hn, hm⟩ := exists_common n e m k
  rw [← Nat.cast_le (α := ℚ), hn, hm, mul_le_mul_iff_left₀ hc]

theorem common_div (hm : 0 < m) : 0 < (common n e m k).2 ∧
    ((common n e m k).1 : ℚ) / (common n e m k).2 = n * 2 ^ e / (m * 10 ^ k) := by
  obtain ⟨c, hc, hn, hden⟩ := exists_common n e m k
  have hm' : (0 : ℚ) < m := by exact_mod_cast hm
  constructor
  · have : (0 : ℚ) < (common n e m k).2 := by
      rw [hden]
      positivity
    exact_mod_cast this
  · rw [hn, hden]
    field_simp

end Common

def Interval.lower (i : Interval) : ℚ := i.low * 2 ^ i.unit

def Interval.upper (i : Interval) : ℚ := i.high * 2 ^ i.unit

theorem contains_iff (i : Interval) (d : Decimal) : i.contains d = true ↔
    if i.closed then i.lower ≤ d.value ∧ d.value ≤ i.upper
    else i.lower < d.value ∧ d.value < i.upper := by
  unfold Interval.contains Interval.lower Interval.upper
  cases i.closed with
  | true => simp [common_le, common_ge, value]
  | false => simp [← not_le, common_le, common_ge, value]

end Treewalk.Decimal

namespace Treewalk.Binary64

open Decimal (Interval contains_iff)

variable {x : Float} {negative : Bool} {s m : ℕ}

theorem zpow_sub_two (e : ℤ) : (2 : ℚ) ^ (e - 2) = 2 ^ e / 4 := by
  rw [zpow_sub₀ two_ne_zero]
  norm_num

theorem high_around (h : Parts x negative s m) :
    (Interval.around m (minExponent + s)).upper =
      (magnitude (s * hiddenBit + m) + magnitude (s * hiddenBit + m + 1)) / 2 := by
  have hnext := magnitude_add (s := s) (m := m + 1) h.lt (h.normal.imp id Nat.le_succ_of_le)
  rw [add_assoc, hnext, h.magnitude, Interval.upper, Interval.around]
  push_cast
  rw [zpow_sub_two]
  ring

theorem low_around (h : Parts x negative s m) (hm : 0 < m) :
    (Interval.around m (minExponent + s)).lower =
      (magnitude (s * hiddenBit + m - 1) + magnitude (s * hiddenBit + m)) / 2 := by
  rw [h.magnitude]
  simp only [Interval.lower, Interval.around]
  rw [zpow_sub_two]
  split
  · next hpower =>
    obtain ⟨rfl, he⟩ := hpower
    -- Below a power of two the exponent is one less.
    obtain ⟨t, rfl⟩ : ∃ t, s = t + 1 := Nat.exists_eq_add_one_of_ne_zero fun h => he (by simp [h])
    have hbefore : (t + 1) * hiddenBit + hiddenBit - 1 = t * hiddenBit + (2 * hiddenBit - 1) := by
      rw [hiddenBit_eq]
      omega
    have hprev := magnitude_add (s := t) (m := 2 * hiddenBit - 1) (Nat.sub_le _ _)
      (.inr (by rw [hiddenBit_eq]; decide))
    have hexp : (2 : ℚ) ^ (minExponent + (t + 1 : ℕ)) = 2 ^ (minExponent + t) * 2 := by
      rw [Nat.cast_add, Nat.cast_one, ← add_assoc, zpow_add_one₀ two_ne_zero]
    rw [hbefore, hprev, hexp, hiddenBit_eq]
    push_cast
    ring
  · next hpower =>
    have hprev := magnitude_add (s := s) (m := m - 1) ((Nat.sub_le m 1).trans h.lt.le) (by
      obtain hs | hs := h.normal
      · exact .inl hs
      · by_cases hz : s = 0
        · exact .inl hz
        · have hne : m ≠ hiddenBit := fun heq => hpower ⟨heq, by omega⟩
          exact .inr (by omega))
    rw [Nat.add_sub_assoc hm, hprev, Nat.cast_sub (by omega), Nat.cast_sub (by omega)]
    push_cast
    ring

theorem isNearest_of_contains (h : Parts x negative s m) (hm : 0 < m) {d : Decimal}
    (hd : (Interval.around m (minExponent + s)).contains d = true) :
    IsNearest (unsigned (s * hiddenBit + m)) d.value := by
  have heven : (Interval.around m (minExponent + s)).closed = true ↔ Even (s * hiddenBit + m) := by
    rw [even_hiddenBit_mul_add, Nat.even_iff]
    exact beq_iff_eq
  have hbefore : s * hiddenBit + m - 1 + 1 = s * hiddenBit + m := by omega
  have hlow := low_around h hm
  have hhigh := high_around h
  have hfinite := h.finite.le
  rw [contains_iff, hlow, hhigh] at hd
  generalize s * hiddenBit + m = b at *
  have hinside : (magnitude (b - 1) + magnitude b) / 2 ≤ d.value ∧
      d.value ≤ (magnitude b + magnitude (b + 1)) / 2 := by
    split at hd
    · exact hd
    · exact ⟨hd.1.le, hd.2.le⟩
  have hends : (magnitude (b - 1) + magnitude b) / 2 = d.value ∨
      d.value = (magnitude b + magnitude (b + 1)) / 2 → Even b := by
    intro hend
    rw [← heven]
    by_contra hopen
    rw [if_neg hopen] at hd
    exact hend.elim hd.1.ne hd.2.ne
  obtain ⟨hlo, hhi⟩ := hinside
  have hmono := strictMono_magnitude (Nat.lt_succ_self b)
  have hmono' : magnitude (b - 1) < magnitude b := strictMono_magnitude (by omega)
  refine isNearest_of_nearer hfinite ?_ fun j _ => ?_
  · have := magnitude_nonneg (b - 1)
    linarith
  obtain habove | hbelow := le_total (magnitude b) d.value
  · refine nearest_of_between strictMono_magnitude (k := b) habove ?_ (.inl ⟨rfl, ?_⟩) ?_ j
    · linarith
    · linarith
    · exact fun htie => hends (.inr (by linarith))
  · refine nearest_of_between strictMono_magnitude (k := b - 1) (r := b) ?_ ?_
      (.inr ⟨hbefore.symm, ?_⟩) ?_ j
    · linarith
    · rwa [hbefore]
    · rw [hbefore]
      linarith
    · rw [hbefore]
      exact fun htie => hends (.inl (by linarith))

end Treewalk.Binary64

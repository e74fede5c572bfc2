import Treewalk.Proofs.Decimal.Intervals

namespace Treewalk.Decimal

open Binary64 (Parts minExponent hiddenBit hiddenBit_eq low_around high_around strictMono_magnitude)

variable {x : Float} {negative : Bool} {s m : ℕ} {k : ℤ} {d : Decimal} {tie : Tie}

theorem pow_width_le {n : ℕ} (hn : 0 < n) : 10 ^ (width n - 1) ≤ n ∧ n < 10 ^ width n := by
  have hpos : 0 < width n := Nat.length_toDigits_pos
  refine ⟨?_, (Nat.length_toDigits_le_iff (by decide) hpos).mp le_rfl⟩
  obtain hone | hmore := Nat.eq_or_lt_of_le (Nat.succ_le_of_lt hpos)
  · rw [← hone]
    exact hn
  · by_contra! hlt
    have hle := (Nat.length_toDigits_le_iff (b := 10) (by decide) (Nat.sub_pos_of_lt hmore)).mpr hlt
    change width n ≤ width n - 1 at hle
    omega

theorem scaled_floor (m : ℕ) (e : ℤ) (t : ℕ) :
    ((m * pow2 e.toNat * t / pow2 (-e).toNat : ℕ) : ℚ) ≤ m * 2 ^ e * t ∧
      (m * 2 ^ e * t : ℚ) < (m * pow2 e.toNat * t / pow2 (-e).toNat : ℕ) + 1 := by
  have hden : (0 : ℚ) < pow2 (-e).toNat := by exact_mod_cast Nat.pow_pos (n := (-e).toNat) two_pos
  have hquot : ((m * pow2 e.toNat * t : ℕ) : ℚ) / pow2 (-e).toNat = m * 2 ^ e * t := by
    rw [div_eq_iff hden.ne']
    simp only [cast_pow2, Nat.cast_mul]
    rw [zpow_toNat two_ne_zero e]
    ring
  rw [← hquot, ← Nat.floor_div_eq_div (K := ℚ)]
  exact ⟨Nat.floor_le (by positivity), Nat.lt_floor_add_one _⟩

theorem pow_leading_le {m : ℕ} {e : ℤ} (hv : (1 : ℚ) ≤ m * 2 ^ e * pow10 340) :
    (10 ^ leading m e : ℚ) ≤ m * 2 ^ e ∧ (m * 2 ^ e : ℚ) < 10 ^ (leading m e + 1) := by
  obtain ⟨hfloor, hceil⟩ := scaled_floor m e (pow10 340)
  have hpow : (pow10 340 : ℚ) = 10 ^ (340 : ℤ) := by rw [cast_pow10, zpow_ofNat]
  unfold leading
  generalize m * pow2 e.toNat * pow10 340 / pow2 (-e).toNat = n at *
  have hn : 0 < n := by
    by_contra! hn
    obtain rfl := Nat.le_zero.mp hn
    rw [Nat.cast_zero, zero_add] at hceil
    exact absurd hv (not_le.mpr hceil)
  obtain ⟨hlo, hhi⟩ := pow_width_le hn
  have hwidth : 0 < width n := Nat.length_toDigits_pos
  have hten : (0 : ℚ) < 10 ^ (340 : ℤ) := by positivity
  rw [hpow] at hfloor hceil
  have hle : ((10 ^ (width n - 1) : ℕ) : ℚ) ≤ n := by exact_mod_cast hlo
  have hlt : (n : ℚ) + 1 ≤ (10 ^ width n : ℕ) := by exact_mod_cast hhi
  rw [Nat.cast_pow, Nat.cast_ofNat, ← zpow_natCast] at hle hlt
  constructor
  · rw [← mul_le_mul_iff_left₀ hten, ← zpow_add₀ (by norm_num)]
    convert hle.trans hfloor using 2
    omega
  · rw [← mul_lt_mul_iff_left₀ hten, ← zpow_add₀ (by norm_num)]
    convert hceil.trans_le hlt using 2
    omega

def below (m : ℕ) (e k : ℤ) : Decimal := ⟨(common m e 1 k).1 / (common m e 1 k).2, k⟩

def above (m : ℕ) (e k : ℤ) : Decimal := ⟨(common m e 1 k).1 / (common m e 1 k).2 + 1, k⟩

theorem value_above (m : ℕ) (e k : ℤ) : (above m e k).value = (below m e k).value + 10 ^ k := by
  simp only [value, above, below]
  push_cast
  ring

theorem neighbours (m : ℕ) (e k : ℤ) :
    (below m e k).value ≤ m * 2 ^ e ∧ (m * 2 ^ e : ℚ) < (above m e k).value := by
  obtain ⟨hden, hquot⟩ := common_div (n := m) (e := e) (m := 1) (k := k) one_pos
  have hten : (0 : ℚ) < 10 ^ k := by positivity
  rw [Nat.cast_one, one_mul] at hquot
  rw [below, above, ← Nat.floor_div_eq_div (K := ℚ), hquot]
  simp only [value, Nat.cast_add, Nat.cast_one]
  rw [← le_div_iff₀ hten, ← div_lt_iff₀ hten]
  exact ⟨Nat.floor_le (by positivity), Nat.lt_floor_add_one _⟩

theorem contains_of_lt {i : Interval} (hlo : i.lower < d.value) (hhi : d.value < i.upper) :
    i.contains d = true := by
  rw [contains_iff]
  split
  · exact ⟨hlo.le, hhi.le⟩
  · exact ⟨hlo, hhi⟩

theorem inside_around (h : Parts x negative s m) (hm : 0 < m) :
    (Interval.around m (minExponent + s)).lower < m * 2 ^ (minExponent + s) ∧
      m * 2 ^ (minExponent + s) < (Interval.around m (minExponent + s)).upper := by
  have hlo := strictMono_magnitude (show s * hiddenBit + m - 1 < s * hiddenBit + m by omega)
  have hhi := strictMono_magnitude (Nat.lt_succ_self (s * hiddenBit + m))
  rw [low_around h hm, high_around h, ← h.magnitude]
  constructor <;> linarith

theorem length_around (h : Parts x negative s m) (hm : 0 < m) :
    (m * 2 ^ (minExponent + s) : ℚ) <
      ((Interval.around m (minExponent + s)).upper -
        (Interval.around m (minExponent + s)).lower) * 10 ^ 16 := by
  have hunit : (0 : ℚ) < 2 ^ (minExponent + s) := by positivity
  have hlt : (m : ℚ) < 9007199254740992 := by exact_mod_cast h.lt
  simp only [Interval.lower, Interval.upper, Interval.around]
  rw [Binary64.zpow_sub_two]
  split
  · next hpower =>
    rw [hpower.1, hiddenBit_eq]
    push_cast
    linarith
  · rw [Nat.cast_sub (by omega)]
    push_cast
    have := mul_lt_mul_of_pos_right hlt hunit
    linarith

theorem contains_neighbour (h : Parts x negative s m) (hm : 0 < m)
    (hk : (10 ^ k * 10 ^ 16 : ℚ) ≤ m * 2 ^ (minExponent + s)) :
    (Interval.around m (minExponent + s)).contains (below m (minExponent + s) k) = true ∨
      (Interval.around m (minExponent + s)).contains (above m (minExponent + s) k) = true := by
  obtain ⟨hbelow, habove⟩ := neighbours m (minExponent + s) k
  obtain ⟨hlo, hhi⟩ := inside_around h hm
  by_contra! hnone
  have hout := length_around h hm
  have hleft := not_lt.mp fun hlt => hnone.1 (contains_of_lt hlt (hbelow.trans_lt hhi))
  have hright := not_lt.mp fun hlt => hnone.2 (contains_of_lt (hlo.trans habove) hlt)
  have hsixteen : (0 : ℚ) < 10 ^ 16 := by positivity
  rw [value_above] at hright
  refine absurd hk (not_le.mpr (hout.trans_le ?_))
  rw [mul_le_mul_iff_left₀ hsixteen]
  linarith

theorem onGrid?_some {m : ℕ} {e : ℤ} (hd : onGrid? tie m e k = some d) :
    (Interval.around m e).contains d = true ∧ d.exponent = k := by
  simp only [onGrid?] at hd
  split at hd
  · cases hd
  · next hbelow _ => cases hd; exact ⟨hbelow, rfl⟩
  · next _ habove => cases hd; exact ⟨habove, rfl⟩
  · next hbelow habove =>
    repeat' split at hd
    all_goals cases hd
    all_goals first | exact ⟨hbelow, rfl⟩ | exact ⟨habove, rfl⟩

theorem isSome_onGrid? {m : ℕ} {e : ℤ}
    (h : (Interval.around m e).contains (below m e k) = true ∨
      (Interval.around m e).contains (above m e k) = true) :
    (onGrid? tie m e k).isSome = true := by
  rw [below, above] at h
  simp only [onGrid?]
  split
  · next hbelow habove =>
    rw [hbelow, habove] at h
    exact absurd h (by simp)
  · rfl
  · rfl
  · repeat' split
    all_goals rfl

theorem strip_spec (fuel : ℕ) (d : Decimal) :
    (strip fuel d).value = d.value ∧ d.exponent ≤ (strip fuel d).exponent := by
  induction fuel generalizing d with
  | zero => exact ⟨rfl, le_rfl⟩
  | succ fuel ih =>
    rw [strip]
    split
    · next hzero =>
      obtain ⟨hvalue, hexponent⟩ := ih ⟨d.digits / 10, d.exponent + 1⟩
      refine ⟨hvalue.trans ?_, by dsimp only at hexponent; omega⟩
      have hdigits : (d.digits : ℚ) = (d.digits / 10 : ℕ) * 10 := by
        exact_mod_cast (Nat.div_mul_cancel (Nat.dvd_of_mod_eq_zero hzero.2)).symm
      rw [value, value, hdigits, zpow_add_one₀ (by norm_num)]
      ring
    · exact ⟨rfl, le_rfl⟩

theorem one_le_least {n t : ℕ} (hn : -minExponent ≤ (108 * n : ℕ)) (ht : t = 34 * n) :
    (1 : ℚ) ≤ 2 ^ minExponent * 10 ^ t := by
  subst ht
  calc (1 : ℚ) = 2 ^ minExponent * 2 ^ (-minExponent) := by
        rw [← zpow_add₀ two_ne_zero, add_neg_cancel, zpow_zero]
    _ ≤ 2 ^ minExponent * 2 ^ ((108 * n : ℕ) : ℤ) := by
        gcongr
        exact one_le_two
    _ = 2 ^ minExponent * (2 ^ 108) ^ n := by rw [zpow_natCast, pow_mul]
    _ ≤ 2 ^ minExponent * (10 ^ 34) ^ n := by
        gcongr
        norm_num
    _ = 2 ^ minExponent * 10 ^ (34 * n) := by rw [pow_mul]

theorem one_le_scaled (hm : 0 < m) (s : ℕ) :
    (1 : ℚ) ≤ m * 2 ^ (minExponent + s) * pow10 340 := by
  have hm' : (1 : ℚ) ≤ m := by exact_mod_cast hm
  have hs : (1 : ℚ) ≤ 2 ^ s := one_le_pow₀ one_le_two
  have hleast : (1 : ℚ) ≤ 2 ^ minExponent * pow10 340 := by
    rw [cast_pow10]
    exact one_le_least (n := 10) (by decide) rfl
  rw [zpow_add₀ two_ne_zero, zpow_natCast]
  calc (1 : ℚ) ≤ m * 2 ^ s * (2 ^ minExponent * pow10 340) :=
        one_le_mul_of_one_le_of_one_le (one_le_mul_of_one_le_of_one_le hm' hs) hleast
    _ = m * (2 ^ minExponent * 2 ^ s) * pow10 340 := by ring

theorem findSome?_range {α : Type} {f : ℕ → Option α} {a : α} {n bound : ℕ} (hn : n < bound)
    (hf : f n = some a) (hnone : ∀ j < n, f j = none) : (List.range bound).findSome? f = some a := by
  obtain ⟨k, rfl⟩ := Nat.exists_eq_add_of_lt hn
  rw [List.findSome?_eq_some_iff]
  refine ⟨List.range n, n, (List.range k).map (n + 1 + ·), ?_, hf, fun j hj =>
    hnone j (List.mem_range.mp hj)⟩
  rw [add_assoc, List.range_add, List.range_succ_eq_map, List.map_cons, List.map_map]
  congr 3
  funext j
  simp only [Function.comp_apply]
  omega

theorem shortest_spec (tie : Tie) (h : Parts x negative s m) (hm : 0 < m) :
    ∃ (d : Decimal) (n : ℕ), n < maxDigits ∧
      onGrid? tie m (minExponent + s) (leading m (minExponent + s) - n) = some d ∧
      (∀ j < n, onGrid? tie m (minExponent + s) (leading m (minExponent + s) - j) = none) ∧
      shortest tie m (minExponent + s) = strip maxDigits d := by
  obtain ⟨hlo, -⟩ := pow_leading_le (one_le_scaled hm s)
  -- of seventeen digits, one of the neighbours is inside
  have hlast :
      (onGrid? tie m (minExponent + s) (leading m (minExponent + s) - (16 : ℕ))).isSome = true := by
    refine isSome_onGrid? (contains_neighbour h hm ?_)
    rw [zpow_sub₀ (by norm_num), zpow_natCast, div_mul_cancel₀ _ (by positivity)]
    exact hlo
  -- the search stops at the first grid that has a number inside
  have hfound : ∃ n : ℕ,
      (onGrid? tie m (minExponent + s) (leading m (minExponent + s) - n)).isSome = true := ⟨16, hlast⟩
  obtain ⟨d, hd⟩ := Option.isSome_iff_exists.mp (Nat.find_spec hfound)
  have hn : Nat.find hfound < maxDigits := Nat.lt_succ_of_le (Nat.find_min' hfound hlast)
  have hnone : ∀ j < Nat.find hfound,
      onGrid? tie m (minExponent + s) (leading m (minExponent + s) - j) = none :=
    fun j hj => Option.not_isSome_iff_eq_none.mp (Nat.find_min hfound hj)
  refine ⟨d, Nat.find hfound, hn, hd, hnone, ?_⟩
  have hsearch := findSome?_range
    (f := onGrid? tie m (minExponent + s) ∘ fun n : ℕ => leading m (minExponent + s) - n) hn hd hnone
  simp only [shortest]
  rw [List.findSome?_map, hsearch]

theorem isNearest_shortest (tie : Tie) (h : Parts x negative s m) (hm : 0 < m) :
    Binary64.IsNearest (Binary64.unsigned (s * hiddenBit + m))
      (shortest tie m (minExponent + s)).value := by
  obtain ⟨d, n, -, hd, -, hshort⟩ := shortest_spec tie h hm
  rw [hshort, (strip_spec maxDigits d).1]
  exact Binary64.isNearest_of_contains h hm (onGrid?_some hd).1

theorem near_of_contains {m : ℕ} {e : ℤ} (hm : 0 < m)
    (hd : (Interval.around m e).contains d = true) :
    (4 * m - 2) * 2 ^ e ≤ 4 * d.value ∧ 4 * d.value ≤ (4 * m + 2) * 2 ^ e := by
  have hunit : (0 : ℚ) < 2 ^ e := by positivity
  have hlow : ((4 * m - 2) * 2 ^ e : ℚ) ≤ 4 * (Interval.around m e).lower := by
    simp only [Interval.lower, Interval.around]
    rw [Binary64.zpow_sub_two]
    split <;> rw [Nat.cast_sub (by omega)] <;> push_cast <;> linarith
  have hhigh : 4 * (Interval.around m e).upper = ((4 * m + 2) * 2 ^ e : ℚ) := by
    simp only [Interval.upper, Interval.around]
    rw [Binary64.zpow_sub_two]
    push_cast
    ring
  rw [contains_iff] at hd
  split at hd <;> constructor <;> linarith

theorem eq_of_contains {m : ℕ} {e : ℤ} (hm : 0 < m) (he : e < 0) {n : ℕ} (hn : d.value = n)
    (hd : (Interval.around m e).contains d = true) : (m * 2 ^ e : ℚ) = n := by
  obtain ⟨hlo, hhi⟩ := near_of_contains hm hd
  obtain ⟨t, rfl⟩ : ∃ t : ℕ, e = -t := ⟨(-e).toNat, by omega⟩
  have hpow : (0 : ℚ) < 2 ^ t := by positivity
  rw [hn, zpow_neg, zpow_natCast, ← div_eq_mul_inv, div_le_iff₀ hpow] at hlo
  rw [hn, zpow_neg, zpow_natCast, ← div_eq_mul_inv, le_div_iff₀ hpow] at hhi
  rw [zpow_neg, zpow_natCast, ← div_eq_mul_inv, div_eq_iff hpow.ne']
  have hlo' : (4 * m - 2 : ℤ) ≤ 4 * (n * 2 ^ t) := by
    have : (4 * m - 2 : ℚ) ≤ 4 * (n * 2 ^ t) := by linarith
    exact_mod_cast this
  have hhi' : (4 * (n * 2 ^ t) : ℤ) ≤ 4 * m + 2 := by
    have : (4 * (n * 2 ^ t) : ℚ) ≤ 4 * m + 2 := by linarith
    exact_mod_cast this
  have hmn : (m : ℤ) = n * 2 ^ t := by omega
  exact_mod_cast hmn

theorem value_of_nonneg (hd : 0 ≤ d.exponent) :
    d.value = (d.digits * 10 ^ d.exponent.toNat : ℕ) := by
  obtain ⟨t, ht⟩ := Int.eq_ofNat_of_zero_le hd
  rw [value, ht, Int.toNat_natCast, zpow_natCast]
  push_cast
  rfl

theorem onGrid?_whole (tie : Tie) (h : Parts x negative s m) (hm : 0 < m) {n : ℕ}
    (hn : (m * 2 ^ (minExponent + s) : ℚ) = n) :
    (onGrid? tie m (minExponent + s) 0).isSome = true := by
  obtain ⟨hbelow, habove⟩ := neighbours m (minExponent + s) 0
  obtain ⟨hlo, hhi⟩ := inside_around h hm
  simp only [value, below, above, zpow_zero, mul_one] at hbelow habove
  rw [hn] at hbelow habove
  have hquot : (common m (minExponent + s) 1 0).1 / (common m (minExponent + s) 1 0).2 = n :=
    le_antisymm (by exact_mod_cast hbelow) (Nat.le_of_lt_succ (by exact_mod_cast habove))
  refine isSome_onGrid? (.inl (contains_of_lt ?_ ?_)) <;>
    rw [below, hquot, value, zpow_zero, mul_one, ← hn] <;> assumption

theorem exponent_shortest (tie : Tie) (h : Parts x negative s m) (hm : 0 < m) :
    0 ≤ (shortest tie m (minExponent + s)).exponent ↔
      ∃ n : ℕ, (m * 2 ^ (minExponent + s) : ℚ) = n := by
  obtain ⟨d, n, hn, hd, hnone, hshort⟩ := shortest_spec tie h hm
  obtain ⟨hcontains, hexponent⟩ := onGrid?_some hd
  obtain ⟨hvalue, hstrip⟩ := strip_spec maxDigits d
  rw [hshort]
  constructor
  · intro hexp
    obtain he | he := lt_or_ge (minExponent + (s : ℤ)) 0
    · exact ⟨_, eq_of_contains hm he (hvalue.symm.trans (value_of_nonneg hexp)) hcontains⟩
    · obtain ⟨t, ht⟩ := Int.eq_ofNat_of_zero_le he
      exact ⟨m * 2 ^ t, by rw [ht, zpow_natCast, Nat.cast_mul, Nat.cast_pow, Nat.cast_ofNat]⟩
  · rintro ⟨k, hk⟩
    refine le_trans ?_ hstrip
    by_contra! hneg
    rw [hexponent] at hneg
    -- The grid of whole numbers was looked at before.
    have hpos : (1 : ℚ) ≤ k := by
      have hv : (0 : ℚ) < k := by
        rw [← hk]
        positivity
      exact_mod_cast hv
    have htop : 0 ≤ leading m (minExponent + s) := by
      obtain ⟨-, hhi⟩ := pow_leading_le (one_le_scaled hm s)
      rw [hk] at hhi
      by_contra! hlt
      exact absurd (hpos.trans_lt hhi) (not_lt.mpr (zpow_le_one_of_nonpos₀ (by norm_num) (by omega)))
    obtain ⟨t, ht⟩ := Int.eq_ofNat_of_zero_le htop
    have hgrid := onGrid?_whole tie h hm hk
    have hzero := hnone t (by omega)
    rw [ht, Int.sub_self] at hzero
    rw [hzero] at hgrid
    cases hgrid

end Treewalk.Decimal

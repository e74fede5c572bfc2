import Treewalk.Proofs.Binary64.Rounding

namespace Treewalk.Binary64

open Float.Model (UnpackedFloat)
open Float.Model.UnpackedFloat (unpack unpackExponent unpackMantissa unpackSign unpackExponent_def
  unpackMantissa_def unpackSign_def pack_unpack_of_valid)

def unsigned (bits : ℕ) : Float := Float.ofBits (UInt64.ofNat bits)

structure Parts (x : Float) (negative : Bool) (s m : ℕ) : Prop where
  parts : ofFloat x = finite negative m (minExponent + s)
  eq : x = if negative then -unsigned (s * hiddenBit + m) else unsigned (s * hiddenBit + m)
  lt : m < 2 * hiddenBit
  normal : s = 0 ∨ hiddenBit ≤ m
  finite : s * hiddenBit + m < infinityBits

variable {x y : Float} {b : ℕ}

theorem toNat_unpackExponent (u : UInt64) :
    (@unpackExponent .binary64 u.toBitVec).toNat = u.toNat / 2 ^ 52 % 2 ^ 11 := by
  rw [unpackExponent_def, BitVec.extractLsb'_toNat, Nat.shiftRight_eq_div_pow]
  rfl

theorem toNat_unpackMantissa (u : UInt64) :
    (@unpackMantissa .binary64 u.toBitVec).toNat = u.toNat % 2 ^ 52 := by
  rw [unpackMantissa_def, BitVec.extractLsb'_toNat, Nat.shiftRight_eq_div_pow, Nat.pow_zero,
    Nat.div_one]
  rfl

theorem toNat_unpackSign (u : UInt64) :
    (@unpackSign .binary64 u.toBitVec).toNat = u.toNat / 2 ^ 63 := by
  rw [unpackSign_def, BitVec.extractLsb'_toNat, Nat.shiftRight_eq_div_pow]
  have := u.toNat_lt
  change u.toNat / 2 ^ 63 % 2 ^ 1 = _
  omega

theorem isFinite_unpack (u : BitVec 64) :
    (unpack .binary64 u).isFinite = true ↔ @unpackExponent .binary64 u ≠ -1#11 := by
  fun_cases unpack .binary64 u with
  | case1 _ _ _ _ he => exact iff_of_false nofun (not_not.mpr he)
  | case2 _ _ he => exact iff_of_false nofun (not_not.mpr he)
  | case3 _ _ _ _ he => exact iff_of_true rfl he
  | case4 _ _ _ _ _ he => exact iff_of_true rfl he
  | case5 _ _ _ _ _ he => exact iff_of_true rfl he

theorem unpack_neg {u v : BitVec 64}
    (he : @unpackExponent .binary64 v = @unpackExponent .binary64 u)
    (hm : @unpackMantissa .binary64 v = @unpackMantissa .binary64 u)
    (hs : @unpackSign .binary64 v = @unpackSign .binary64 u + 1) :
    unpack .binary64 v = (unpack .binary64 u).neg := by
  have hsign (w : BitVec 1) :
      UnpackedFloat.Sign.ofBitVec (w + 1) = -UnpackedFloat.Sign.ofBitVec w := by
    obtain rfl | rfl := BitVec.eq_zero_or_eq_one w <;> rfl
  unfold unpack
  simp only [he, hm, hs, hsign]
  split
  · split <;> rfl
  · split
    · split <;> rfl
    · rfl

theorem toNat_signed_bits (hb : b ≤ infinityBits) :
    (UInt64.ofNat (b + 2 ^ 63)).toNat = b + 2 ^ 63 ∧
      (UInt64.ofNat (b + 2 ^ 63)).toNat % 2 ^ 63 ≤ infinityBits := by
  have hnat : (UInt64.ofNat (b + 2 ^ 63)).toNat = b + 2 ^ 63 := by
    rw [infinityBits_eq] at hb
    rw [UInt64.toNat_ofNat']
    omega
  refine ⟨hnat, ?_⟩
  rw [hnat]
  omega

theorem neg_unsigned (hb : b ≤ infinityBits) :
    -unsigned b = Float.ofBits (UInt64.ofNat (b + 2 ^ 63)) := by
  have hlt : b < 2 ^ 63 := by
    rw [infinityBits_eq] at hb
    omega
  have hu : (UInt64.ofNat b).toNat = b := toNat_ofNat_bits hb
  obtain ⟨hv, hvalid⟩ := toNat_signed_bits hb
  have hunpack : unpack .binary64 (UInt64.ofNat (b + 2 ^ 63)).toBitVec =
      (unpack .binary64 (UInt64.ofNat b).toBitVec).neg := by
    refine unpack_neg ?_ ?_ ?_ <;> rw [← BitVec.toNat_inj]
    · rw [toNat_unpackExponent, toNat_unpackExponent, hu, hv]
      omega
    · rw [toNat_unpackMantissa, toNat_unpackMantissa, hu, hv]
      omega
    · rw [BitVec.toNat_add, toNat_unpackSign, toNat_unpackSign, hu, hv]
      change (b + 2 ^ 63) / 2 ^ 63 = (b / 2 ^ 63 + 1) % 2
      omega
  have hneg : (-unsigned b).toBits = UInt64.ofBitVec (UnpackedFloat.pack .binary64
      (unpack .binary64 (unsigned b).toBits.toBitVec).neg) := rfl
  have hvalid' : (UInt64.ofNat b).toNat % 2 ^ 63 ≤ infinityBits := by
    rw [hu]
    omega
  rw [← Float.toBits_inj, hneg, unsigned, toBits_ofBits hvalid', ← hunpack, toBits_ofBits hvalid]
  exact UInt64.toBitVec_inj.mp (pack_unpack_of_valid (valid_of_le hvalid))

theorem sign?_neg (hx : (ofFloat x).sign? = some false) : (ofFloat (-x)).sign? = some true := by
  obtain ⟨b, hb, rfl⟩ := exists_bits hx
  obtain ⟨hnat, hvalid⟩ := toNat_signed_bits hb
  have hneg : -Float.ofBits (UInt64.ofNat b) = _ := neg_unsigned hb
  rw [hneg, ofFloat, toBits_ofBits hvalid, sign?_ofBits hvalid, hnat]
  rw [infinityBits_eq] at hb
  exact congrArg some (beq_iff_eq.mpr (by omega))

theorem exists_parts_of_isFinite (hx : x.isFinite = true) : ∃ negative s m, Parts x negative s m := by
  have hne := (isFinite_unpack x.toBits.toBitVec).mp hx
  rw [ne_eq, ← BitVec.toNat_inj, toNat_unpackExponent] at hne
  have hlt : x.toBits.toNat % 2 ^ 63 < infinityBits := by
    rw [infinityBits_eq]
    change ¬ x.toBits.toNat / 2 ^ 52 % 2 ^ 11 = 2047 at hne
    omega
  obtain ⟨-, heq⟩ | ⟨s, m, hf, hb, hm, hs⟩ := ofBits_cases (u := x.toBits) hlt.le
  · exact absurd heq hlt.ne
  refine ⟨_, s, m, hf, ?_, hm, hs, hb ▸ hlt⟩
  have hx : x = Float.ofBits (UInt64.ofNat x.toBits.toNat) := by
    rw [UInt64.ofNat_toNat, Float.ofBits_toBits]
  have hmax := x.toBits.toNat_lt
  rw [← hb]
  split
  · next hsign =>
    have hsign : x.toBits.toNat / 2 ^ 63 = 1 := eq_of_beq hsign
    rw [neg_unsigned hlt.le, show x.toBits.toNat % 2 ^ 63 + 2 ^ 63 = x.toBits.toNat by omega]
    exact hx
  · next hsign =>
    have hsign : x.toBits.toNat / 2 ^ 63 ≠ 1 := fun h => hsign (beq_iff_eq.mpr h)
    rw [unsigned, show x.toBits.toNat % 2 ^ 63 = x.toBits.toNat by omega]
    exact hx

namespace Parts

variable {negative : Bool} {s m : ℕ}

theorem value (h : Parts x negative s m) :
    (ofFloat x).value = signed negative (m * 2 ^ (minExponent + s)) := by
  rw [h.parts]
  rfl

theorem magnitude (h : Parts x negative s m) :
    magnitude (s * hiddenBit + m) = m * 2 ^ (minExponent + s) :=
  magnitude_add h.lt.le h.normal

end Parts

theorem ne_nan_of_isFinite (hx : x.isFinite = true) : x ≠ Float.nan := by
  rintro rfl
  cases hx

theorem beq_of_eq (hx : x.isFinite = true) (h : y = x ∨ y = 0 ∧ x = -0) : (y == x) = true := by
  rw [Float.beq_iff_ne_nan_and_eq]
  obtain rfl | ⟨rfl, rfl⟩ := h
  · exact ⟨ne_nan_of_isFinite hx, ne_nan_of_isFinite hx, .inl rfl⟩
  · exact ⟨ne_nan_of_isFinite rfl, ne_nan_of_isFinite hx, .inr (.inl ⟨rfl, rfl⟩)⟩

end Treewalk.Binary64

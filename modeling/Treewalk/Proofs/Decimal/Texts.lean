import Treewalk.Number
import Treewalk.Proofs.Decimal.Shortest
import Treewalk.Proofs.Scanning.Lexemes
import Treewalk.Tree.Printer

namespace Treewalk

open Binary64 (IsNearest Parts minExponent hiddenBit unsigned)

inductive Numeral : Bool → List Char → ℚ → Prop
  | whole : IsDigits ds → Numeral false ds (decimalValue ds [])
  | fraction : IsDigits ds → IsDigits fs → Numeral true (ds ++ '.' :: fs) (decimalValue ds fs)

theorem isDigits_toDigits (n : ℕ) : IsDigits (Nat.toDigits 10 n) :=
  ⟨Nat.toDigits_ne_nil, List.all_eq_true.mpr fun _ hc =>
    Nat.isDigit_of_mem_toDigits (by decide) (by decide) hc⟩

namespace IsDigits

variable {ds : List Char}

theorem zeros (n : ℕ) : (List.replicate n '0').all Char.isDigit := by
  rw [List.all_eq_true]
  intro c hc
  rw [List.eq_of_mem_replicate hc]
  rfl

theorem zeros_append (h : IsDigits ds) (n : ℕ) : IsDigits (List.replicate n '0' ++ ds) :=
  ⟨by simp [h.1], by rw [List.all_append, h.2, zeros, Bool.and_self]⟩

theorem append_zeros (h : IsDigits ds) (n : ℕ) : IsDigits (ds ++ List.replicate n '0') :=
  ⟨by simp [h.1], by rw [List.all_append, h.2, zeros, Bool.and_self]⟩

theorem take (h : IsDigits ds) {n : ℕ} (hn : 0 < n) : IsDigits (ds.take n) := by
  refine ⟨?_, List.all_eq_true.mpr fun c hc =>
    List.all_eq_true.mp h.2 c (List.mem_of_mem_take hc)⟩
  rw [ne_eq, List.take_eq_nil_iff]
  exact not_or.mpr ⟨hn.ne', h.1⟩

theorem drop (h : IsDigits ds) {n : ℕ} (hn : n < ds.length) : IsDigits (ds.drop n) := by
  refine ⟨?_, List.all_eq_true.mpr fun c hc =>
    List.all_eq_true.mp h.2 c (List.mem_of_mem_drop hc)⟩
  rw [ne_eq, List.drop_eq_nil_iff]
  exact not_le.mpr hn

end IsDigits

namespace Number

theorem ofDigits_toDigits (n : ℕ) : ofDigits (Nat.toDigits 10 n) = n := by
  rw [ofDigits, ← Nat.ofDigitChars_eq_foldl, Nat.ofDigitChars_ten_toDigits]

theorem ofDigits_zeros (n : ℕ) : ofDigits (List.replicate n '0') = 0 := by
  rw [ofDigits, ← Nat.ofDigitChars_eq_foldl, Nat.ofDigitChars_replicate_zero, Nat.mul_zero]

end Number

theorem decimalValue_eq (ds fs : List Char) :
    decimalValue ds fs = Number.ofDigits (ds ++ fs) / 10 ^ fs.length := by
  rw [Number.ofDigits_append, decimalValue]
  push_cast
  field_simp

theorem decimalValue_nil (ds : List Char) : decimalValue ds [] = Number.ofDigits ds := by
  rw [decimalValue_eq, List.append_nil, List.length_nil, pow_zero, div_one]

theorem numeral_point {ds fs : List Char} (hds : IsDigits ds) (hfs : IsDigits fs) {n : ℕ}
    (hn : Number.ofDigits (ds ++ fs) = n) : Numeral true (ds ++ '.' :: fs) (n / 10 ^ fs.length) := by
  rw [← hn, ← decimalValue_eq]
  exact .fraction hds hfs

theorem Decimal.numeral_positional (d : Decimal) :
    Numeral (decide (d.exponent < 0)) (d.positional []) d.value := by
  have hds := isDigits_toDigits d.digits
  have hvalue := Number.ofDigits_toDigits d.digits
  unfold positional
  generalize Nat.toDigits 10 d.digits = ds at *
  obtain hexp | hexp := le_or_gt 0 d.exponent
  · have hplaces : (-d.exponent).toNat = 0 := by omega
    have hwhole : decimalValue (ds ++ List.replicate d.exponent.toNat '0') [] = d.value := by
      rw [decimalValue_nil, Number.ofDigits_append, hvalue, Number.ofDigits_zeros,
        List.length_replicate, Nat.add_zero, value_of_nonneg hexp]
    rw [decide_eq_false (not_lt.mpr hexp), if_pos hplaces, List.append_nil, ← hwhole]
    exact .whole (hds.append_zeros _)
  · obtain ⟨t, ht⟩ : ∃ t : ℕ, d.exponent = -(t + 1 : ℕ) := ⟨(-d.exponent - 1).toNat, by omega⟩
    have hplaces : (-d.exponent).toNat = t + 1 := by omega
    have hpoint : d.value = d.digits / 10 ^ (t + 1) := by
      rw [value, ht, zpow_neg, zpow_natCast, ← div_eq_mul_inv]
    rw [decide_eq_true hexp, hpoint]
    simp only [hplaces]
    rw [if_neg (Nat.succ_ne_zero t)]
    split
    · next hlt =>
      have hlength : (ds.drop (ds.length - (t + 1))).length = t + 1 := by
        rw [List.length_drop]
        omega
      have h := numeral_point (hds.take (n := ds.length - (t + 1)) (by omega))
        (hds.drop (n := ds.length - (t + 1)) (by omega)) (n := d.digits)
        (by rw [List.take_append_drop, hvalue])
      rwa [hlength] at h
    · next hge =>
      have hlength : (List.replicate (t + 1 - ds.length) '0' ++ ds).length = t + 1 := by
        rw [List.length_append, List.length_replicate]
        omega
      have hzero : IsDigits ['0'] := ⟨List.cons_ne_nil _ _, rfl⟩
      have h := numeral_point hzero
        (hds.zeros_append (t + 1 - ds.length)) (n := d.digits) (by
          rw [← List.append_assoc, Number.ofDigits_append, hvalue]
          show Number.ofDigits (List.replicate (t + 1 - ds.length + 1) '0') * _ + _ = _
          rw [Number.ofDigits_zeros, Nat.zero_mul, Nat.zero_add])
      rwa [hlength] at h

/-- A text of a number: digits nearest to its magnitude, behind a minus sign if it is below zero. Zero
has no sign. -/
inductive Writes (fraction : Bool) : List Char → Float → Prop
  | plain : Numeral fraction cs q → IsNearest y q → y = x ∨ y = 0 ∧ x = -0 → Writes fraction cs x
  | minus : Numeral fraction cs q → IsNearest y q → -y = x → Writes fraction ('-' :: cs) x

variable {x : Float} {negative fraction : Bool} {s m n : ℕ} {q : ℚ} {cs : List Char}

theorem Binary64.isNearest_magnitude {b : ℕ} (hb : b ≤ infinityBits) :
    IsNearest (unsigned b) (magnitude b) := by
  refine isNearest_of_nearer hb (magnitude_nonneg b) fun j _ => ?_
  rw [Nearer, sub_self, abs_zero]
  exact ⟨abs_nonneg _, fun hne htie => absurd (sub_eq_zero.mp (abs_eq_zero.mp htie.symm)) hne⟩

theorem Binary64.Parts.isNearest (h : Parts x negative s m) :
    IsNearest (unsigned (s * hiddenBit + m)) (m * 2 ^ (minExponent + s)) := by
  rw [← h.magnitude]
  exact isNearest_magnitude h.finite.le

theorem Writes.of_parts (h : Parts x negative s m) (hn : Numeral fraction cs q)
    (hq : IsNearest (unsigned (s * hiddenBit + m)) q) :
    Writes fraction (if negative then '-' :: cs else cs) x := by
  have hx := h.eq
  cases negative with
  | true => exact .minus hn hq hx.symm
  | false => exact .plain hn hq (.inl hx.symm)

namespace Number

theorem whole?_cases (h : Parts x negative s m) :
    (∃ n : ℕ, (m * 2 ^ (minExponent + s) : ℚ) = n ∧ n < pow10 15 ∧
      whole? x = some (if negative then -(n : ℤ) else n)) ∨
    whole? x = none ∧ ∀ n : ℕ, (m * 2 ^ (minExponent + s) : ℚ) = n → pow10 15 ≤ n := by
  have hden : 0 < pow2 (-(minExponent + (s : ℤ))).toNat := Nat.pow_pos two_pos
  have hden' : (0 : ℚ) < pow2 (-(minExponent + (s : ℤ))).toNat := by exact_mod_cast hden
  have hnum : ((m * pow2 (minExponent + (s : ℤ)).toNat : ℕ) : ℚ) =
      m * 2 ^ (minExponent + s) * pow2 (-(minExponent + (s : ℤ))).toNat := by
    rw [Nat.cast_mul, Decimal.cast_pow2, Decimal.cast_pow2, Decimal.zpow_toNat two_ne_zero]
    ring
  have hwhole (n : ℕ) : (m * 2 ^ (minExponent + s) : ℚ) = n ↔
      m * pow2 (minExponent + (s : ℤ)).toNat = n * pow2 (-(minExponent + (s : ℤ))).toNat := by
    rw [← Nat.cast_inj (R := ℚ), hnum, Nat.cast_mul, mul_left_inj' hden'.ne']
  simp only [whole?, h.parts]
  split
  · next hsmall =>
    obtain ⟨hmod, hlt⟩ := hsmall
    refine .inl ⟨_, (hwhole _).mpr (Nat.div_mul_cancel (Nat.dvd_of_mod_eq_zero hmod)).symm, hlt, rfl⟩
  · next hlarge =>
    refine .inr ⟨rfl, fun n hn => ?_⟩
    by_contra! hlt
    rw [hwhole n] at hn
    rw [hn, Nat.mul_mod_left, Nat.mul_div_cancel _ hden] at hlarge
    exact hlarge ⟨rfl, hlt⟩

theorem mantissa_eq_zero (hn : (m * 2 ^ (minExponent + s) : ℚ) = (0 : ℕ)) : m = 0 := by
  have hunit : (2 : ℚ) ^ (minExponent + (s : ℤ)) ≠ 0 := by positivity
  exact_mod_cast (mul_eq_zero.mp (hn.trans Nat.cast_zero)).resolve_right hunit

theorem writes_integer (h : Parts x negative s m) (hn : (m * 2 ^ (minExponent + s) : ℚ) = n)
    (hcs : Numeral fraction (Nat.toDigits 10 n ++ cs) n) :
    Writes fraction (integer (if negative then -(n : ℤ) else n) ++ cs) x := by
  have hnear := h.isNearest
  rw [hn] at hnear
  obtain rfl | hpos := Nat.eq_zero_or_pos n
  · obtain rfl := mantissa_eq_zero hn
    have hs : s = 0 := h.normal.resolve_right (by rw [Binary64.hiddenBit_eq]; decide)
    subst hs
    have hx := h.eq
    rw [Nat.zero_mul, Nat.zero_add] at hnear hx
    rw [Nat.cast_zero, neg_zero, ite_self]
    refine .plain hcs hnear ?_
    cases negative with
    | true => exact .inr ⟨rfl, hx⟩
    | false => exact .inl hx.symm
  · have hw := Writes.of_parts h hcs hnear
    cases negative with
    | true =>
      have hneg : -(n : ℤ) < 0 := by omega
      rw [if_pos rfl] at hw ⊢
      rwa [integer, if_pos hneg, Int.natAbs_neg, Int.natAbs_natCast, List.cons_append]
    | false =>
      rw [if_neg Bool.false_ne_true] at hw ⊢
      rwa [integer, if_neg (by omega), Int.natAbs_natCast]

theorem writes_plain (h : Parts x negative s m) (hm : 0 < m) :
    Writes (decide ((Decimal.shortest .up m (minExponent + s)).exponent < 0)) (plain x) x := by
  have hdigits := Decimal.numeral_positional (Decimal.shortest .up m (minExponent + s))
  have hw := Writes.of_parts h hdigits (Decimal.isNearest_shortest .up h hm)
  simp only [plain, h.parts, Layout.finite, Layout.magnitude, if_neg hm.ne', Layout.plain, if_true]
  exact hw

theorem numeral_toDigits (n : ℕ) : Numeral false (Nat.toDigits 10 n ++ []) n := by
  have h := Numeral.whole (isDigits_toDigits n)
  rwa [decimalValue_nil, ofDigits_toDigits, ← List.append_nil (Nat.toDigits 10 n)] at h

theorem numeral_toDigits_zero (n : ℕ) : Numeral true (Nat.toDigits 10 n ++ ['.', '0']) n := by
  have hzero : IsDigits ['0'] := ⟨List.cons_ne_nil _ _, rfl⟩
  have h := Numeral.fraction (isDigits_toDigits n) hzero
  have hvalue : decimalValue (Nat.toDigits 10 n) ['0'] = n := by
    rw [decimalValue, ofDigits_toDigits]
    simp [ofDigits]
  rwa [hvalue] at h

theorem mantissa_pos (hlarge : ∀ n : ℕ, (m * 2 ^ (minExponent + s) : ℚ) = n → pow10 15 ≤ n) :
    0 < m := by
  refine Nat.pos_of_ne_zero fun hm => ?_
  have hle := hlarge 0 (by rw [hm, Nat.cast_zero, zero_mul])
  exact absurd hle (by decide)

theorem writes_display (hx : x.isFinite = true) : ∃ fraction, Writes fraction (display x).toList x := by
  obtain ⟨negative, s, m, h⟩ := Binary64.exists_parts_of_isFinite hx
  rw [display, String.toList_ofList]
  obtain ⟨n, hn, -, hwhole⟩ | ⟨hwhole, hlarge⟩ := whole?_cases h
  · rw [hwhole]
    exact ⟨false, by simpa using writes_integer h hn (numeral_toDigits n)⟩
  · rw [hwhole]
    exact ⟨_, writes_plain h (mantissa_pos hlarge)⟩

def IsLargeWhole (x : Float) : Prop :=
  ∃ i : ℤ, (Binary64.ofFloat x).value = i ∧ pow10 15 ≤ i.natAbs

theorem isLargeWhole_iff (h : Parts x negative s m) : IsLargeWhole x ↔
    ∃ n : ℕ, (m * 2 ^ (minExponent + s) : ℚ) = n ∧ pow10 15 ≤ n := by
  have hnonneg : (0 : ℚ) ≤ m * 2 ^ (minExponent + s) := by positivity
  unfold IsLargeWhole
  rw [h.value]
  constructor
  · rintro ⟨i, hi, hle⟩
    refine ⟨i.natAbs, ?_, hle⟩
    have habs : |Binary64.signed negative (m * 2 ^ (minExponent + s))| = m * 2 ^ (minExponent + s) := by
      cases negative
      · exact abs_of_nonneg hnonneg
      · rw [Binary64.signed, if_pos rfl, abs_neg, abs_of_nonneg hnonneg]
    rw [← habs, hi, Nat.cast_natAbs, Int.cast_abs]
  · rintro ⟨n, hn, hle⟩
    refine ⟨if negative then -(n : ℤ) else n, ?_, ?_⟩
    · rw [hn]
      cases negative
      · rfl
      · rw [Binary64.signed, if_pos rfl, if_pos rfl, Int.cast_neg, Int.cast_natCast]
    · split
      · rwa [Int.natAbs_neg, Int.natAbs_natCast]
      · exact hle

theorem writes_literal (hx : x.isFinite = true) : ∃ fraction,
    (fraction = true ↔ ¬ IsLargeWhole x) ∧ Writes fraction (literal x).toList x := by
  obtain ⟨negative, s, m, h⟩ := Binary64.exists_parts_of_isFinite hx
  rw [literal, String.toList_ofList, isLargeWhole_iff h]
  obtain ⟨n, hn, hlt, hwhole⟩ | ⟨hwhole, hlarge⟩ := whole?_cases h
  · rw [hwhole]
    refine ⟨true, iff_of_true rfl ?_, writes_integer h hn (numeral_toDigits_zero n)⟩
    rintro ⟨k, hk, hle⟩
    rw [hn, Nat.cast_inj] at hk
    exact absurd (hk ▸ hle) (not_le.mpr hlt)
  · have hm := mantissa_pos hlarge
    rw [hwhole]
    refine ⟨_, ?_, writes_plain h hm⟩
    rw [decide_eq_true_iff, ← not_le, Decimal.exponent_shortest .up h hm]
    refine not_congr (exists_congr fun n => ?_)
    exact ⟨fun hn => ⟨hn, hlarge n hn⟩, And.left⟩

end Number

def IsSign (cs : List Char) : Prop := cs = [] ∨ cs = ['-']

/-- A sign, digits, a point and digits. -/
def HasFraction (text : String) : Prop :=
  ∃ sign ds fs, IsSign sign ∧ IsDigits ds ∧ IsDigits fs ∧ text.toList = sign ++ ds ++ '.' :: fs

def IsInteger (text : String) : Prop :=
  ∃ sign ds, IsSign sign ∧ IsDigits ds ∧ text.toList = sign ++ ds

theorem Writes.exists_sign (h : Writes fraction cs x) :
    ∃ sign text q, IsSign sign ∧ Numeral fraction text q ∧ cs = sign ++ text := by
  cases h with
  | plain hn => exact ⟨[], _, _, .inl rfl, hn, rfl⟩
  | minus hn => exact ⟨['-'], _, _, .inr rfl, hn, rfl⟩

theorem Writes.hasFraction {text : String} (h : Writes true text.toList x) : HasFraction text := by
  obtain ⟨sign, _, _, hsign, hn, htext⟩ := h.exists_sign
  cases hn with
  | fraction hds hfs => exact ⟨sign, _, _, hsign, hds, hfs, by rw [htext, List.append_assoc]⟩

theorem Writes.isInteger {text : String} (h : Writes false text.toList x) : IsInteger text := by
  obtain ⟨sign, _, _, hsign, hn, htext⟩ := h.exists_sign
  cases hn with
  | whole hds => exact ⟨sign, _, hsign, hds, htext⟩

theorem IsInteger.not_hasFraction {text : String} (h : IsInteger text) : ¬ HasFraction text := by
  obtain ⟨sign, ds, hsign, hds, htext⟩ := h
  rintro ⟨sign', ds', fs, -, -, -, htext'⟩
  have hpoint : '.' ∈ sign ++ ds := by
    rw [← htext, htext']
    simp
  obtain hmem | hmem := List.mem_append.mp hpoint
  · obtain rfl | rfl := hsign <;> simp at hmem
  · exact absurd (List.all_eq_true.mp hds.2 '.' hmem) (by decide)

/-- A literal of a finite number has a fraction, in a dump of tokens and in a printed tree too, unless
it is a whole number from `10 ^ 15` on; that is written as an integer. -/
theorem literal_fraction (x : Float) (hx : x.isFinite = true) :
    (HasFraction (Number.literal x) ↔ ¬ Number.IsLargeWhole x) ∧
      (Number.IsLargeWhole x → IsInteger (Number.literal x)) ∧
      (∀ lexeme line, (⟨.number x, lexeme, line⟩ : Token).dump =
        "NUMBER " ++ lexeme ++ " " ++ Number.literal x) ∧
      (Expr.literal (.number x)).render = Number.literal x := by
  obtain ⟨fraction, hfraction, hw⟩ := Number.writes_literal hx
  refine ⟨?_, fun hlarge => ?_, fun _ _ => rfl, by rw [Expr.render, Literal.render]⟩
  · cases fraction with
    | true => exact iff_of_true hw.hasFraction (hfraction.mp rfl)
    | false => exact iff_of_false hw.isInteger.not_hasFraction fun h => nomatch hfraction.mpr h
  · cases fraction with
    | true => exact absurd hlarge (hfraction.mp rfl)
    | false => exact hw.isInteger

theorem literal_fraction_half : (Float.ofBits 0x3fe0000000000000).isFinite = true ∧
    HasFraction (Number.literal (Float.ofBits 0x3fe0000000000000)) := by
  have hparts : Binary64.ofFloat (Float.ofBits 0x3fe0000000000000) =
      .finite false 4503599627370496 (-53) := by
    decide +kernel
  refine ⟨rfl, (literal_fraction _ rfl).1.mpr ?_⟩
  rintro ⟨i, hi, hlarge⟩
  rw [hparts] at hi
  have htwice : (2 * i : ℚ) = 1 := by
    rw [← hi, Binary64.value, Binary64.signed]
    norm_num
  have htwice : 2 * i = 1 := by exact_mod_cast htwice
  omega

theorem literal_misses_fraction :
    (Float.ofBits 0x430c6bf526340000).isFinite = true ∧
      Number.literal (Float.ofBits 0x430c6bf526340000) = "1000000000000000" ∧
      ¬ HasFraction (Number.literal (Float.ofBits 0x430c6bf526340000)) := by
  have htext : Number.literal (Float.ofBits 0x430c6bf526340000) = "1000000000000000" := by
    decide +kernel
  refine ⟨rfl, htext, ?_⟩
  rw [htext]
  exact IsInteger.not_hasFraction ⟨[], _, .inl rfl, ⟨List.cons_ne_nil _ _, rfl⟩, rfl⟩

end Treewalk

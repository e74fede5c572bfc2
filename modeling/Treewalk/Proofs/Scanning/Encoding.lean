import Treewalk.Proofs.Scanning.Seams
import Treewalk.Token.Scanner

namespace Treewalk

def encode (cs : List Char) : List UInt8 := cs.flatMap String.utf8EncodeChar

@[simp] theorem encode_nil : encode [] = [] := rfl

@[simp] theorem encode_cons (c : Char) (cs : List Char) :
    encode (c :: cs) = String.utf8EncodeChar c ++ encode cs := List.flatMap_cons

@[simp] theorem encode_append (cs ds : List Char) : encode (cs ++ ds) = encode cs ++ encode ds :=
  List.flatMap_append

theorem bytes_ofList (cs : List Char) :
    (String.ofList cs).toByteArray.data.toList = encode cs := by
  simp [encode, List.utf8Encode]

theorem utf8ByteSize_ofList (cs : List Char) :
    (String.ofList cs).utf8ByteSize = (encode cs).length := by
  rw [← bytes_ofList, Array.length_toList]
  rfl

theorem utf8EncodeChar_ascii {c : Char} (h : c.toNat < 128) :
    String.utf8EncodeChar c = [c.toUInt8] := by
  apply String.utf8EncodeChar_eq_singleton
  rw [Char.utf8Size_eq_one_iff, UInt32.le_iff_toNat_le]
  exact Nat.le_of_lt_succ h

theorem le_of_mem_utf8EncodeChar {c : Char} {b : UInt8} (h : 128 ≤ c.toNat)
    (hb : b ∈ String.utf8EncodeChar c) : 128 ≤ b.toNat := by
  have hv : ¬ c.val.toNat ≤ 0x7f := Nat.not_le.mpr h
  have hofNat (n : Nat) : (UInt8.ofNat n).toNat = n % 256 := rfl
  simp only [String.utf8EncodeChar, if_neg hv] at hb
  split at hb
  · simp only [List.mem_cons, List.not_mem_nil, or_false] at hb
    obtain rfl | rfl := hb <;> rw [hofNat] <;> omega
  split at hb
  · simp only [List.mem_cons, List.not_mem_nil, or_false] at hb
    obtain rfl | rfl | rfl := hb <;> rw [hofNat] <;> omega
  · simp only [List.mem_cons, List.not_mem_nil, or_false] at hb
    obtain rfl | rfl | rfl | rfl := hb <;> rw [hofNat] <;> omega

theorem exists_mem_utf8EncodeChar (c : Char) :
    ∃ b bs, String.utf8EncodeChar c = b :: bs ∧ b ∈ String.utf8EncodeChar c := by
  obtain ⟨b, bs, h⟩ := List.exists_cons_of_ne_nil (String.utf8EncodeChar_ne_nil (c := c))
  exact ⟨b, bs, h, h ▸ List.mem_cons_self⟩

theorem toNat_toUInt8 {c : Char} (h : c.toNat < 128) : c.toUInt8.toNat = c.toNat := by
  change c.toNat % 256 = c.toNat
  omega

theorem toNat_ofUInt8 (b : UInt8) : (Char.ofUInt8 b).toNat = b.toNat := by
  change (b.toUInt32).toNat = b.toNat
  exact UInt8.toNat_toUInt32 b

theorem ofUInt8_toUInt8 {c : Char} (h : c.toNat < 128) : Char.ofUInt8 c.toUInt8 = c := by
  rw [← Char.toNat_inj, toNat_ofUInt8, toNat_toUInt8 h]

structure Beside (p : UInt8 → Bool) (q : Char → Bool) : Prop where
  ascii : ∀ c, c.toNat < 128 → p c.toUInt8 = q c
  other : ∀ b c, 128 ≤ b.toNat → 128 ≤ c.toNat → p b = q c

namespace Beside

theorem ofUInt8 {q : Char → Bool} (h : ∀ c, 128 ≤ c.toNat → q c = false) :
    Beside (fun b => q (.ofUInt8 b)) q := by
  constructor
  · intro c hc
    rw [ofUInt8_toUInt8 hc]
  · intro b c hb hc
    rw [h c hc, h _ (by rwa [toNat_ofUInt8])]

theorem eq {d : Char} (hd : d.toNat < 128) : Beside (· = d.toUInt8) (· = d) := by
  constructor
  · intro c hc
    congr 1
    rw [← UInt8.toNat_inj, toNat_toUInt8 hc, toNat_toUInt8 hd, Char.toNat_inj]
  · intro b c hb hc
    have hbd : b ≠ d.toUInt8 := by
      rintro rfl
      rw [toNat_toUInt8 hd] at hb
      omega
    have hcd : c ≠ d := by
      rintro rfl
      omega
    simp only [hbd, hcd]

theorem ne {d : Char} (hd : d.toNat < 128) : Beside (· ≠ d.toUInt8) (· ≠ d) := by
  constructor
  · intro c hc
    rw [decide_not, decide_not, (eq hd).ascii c hc]
  · intro b c hb hc
    rw [decide_not, decide_not, (eq hd).other b c hb hc]

variable {p : UInt8 → Bool} {q : Char → Bool}

theorem of_mem (h : Beside p q) {b : UInt8} {c : Char} (hb : b ∈ String.utf8EncodeChar c) :
    p b = q c := by
  by_cases hc : c.toNat < 128
  · rw [utf8EncodeChar_ascii hc, List.mem_singleton] at hb
    rw [hb, h.ascii c hc]
  · have hc : 128 ≤ c.toNat := Nat.not_lt.mp hc
    exact h.other b c (le_of_mem_utf8EncodeChar hc hb) hc

theorem takeWhile_encode (h : Beside p q) (cs : List Char) :
    (encode cs).takeWhile p = encode (cs.takeWhile q) := by
  induction cs with
  | nil => rfl
  | cons c cs ih =>
    rw [encode_cons]
    cases hq : q c with
    | true =>
      rw [List.takeWhile_append_of_pos fun b hb => (h.of_mem hb).trans hq, ih,
        List.takeWhile_cons_of_pos hq, encode_cons]
    | false =>
      obtain ⟨b, bs, hbs, hb⟩ := exists_mem_utf8EncodeChar c
      have hp : p b = false := (h.of_mem hb).trans hq
      rw [List.takeWhile_cons_of_neg (by simp [hq]), hbs, List.cons_append,
        List.takeWhile_cons_of_neg (by simp [hp]), encode_nil]

theorem headD_encode (h : Beside p q) (hp : p 0 = false) (cs : List Char) :
    p ((encode cs).headD 0) = Cut.starts q cs := by
  cases cs with
  | nil => exact hp
  | cons c cs =>
    obtain ⟨b, bs, hbs, hb⟩ := exists_mem_utf8EncodeChar c
    rw [encode_cons, hbs]
    exact h.of_mem hb

end Beside

theorem count_encode (cs : List Char) : (encode cs).count '\n'.toUInt8 = cs.count '\n' := by
  induction cs with
  | nil => rfl
  | cons c cs ih =>
    rw [encode_cons, List.count_append, ih, List.count_cons, Nat.add_comm]
    congr 1
    have hbeside := Beside.eq (d := '\n') (by decide)
    by_cases hc : c = '\n'
    · subst hc
      rfl
    · rw [if_neg (by simpa using hc), List.count_eq_zero]
      intro hb
      have hmem := hbeside.of_mem hb
      simp [hc] at hmem

theorem all_ne_of_all {p : Char → Bool} {cs : List Char} (h : cs.all p) (hc : p c = false) :
    cs.all (· ≠ c) := by
  rw [List.all_eq_true] at h ⊢
  intro d hd
  have hp := h d hd
  refine decide_eq_true ?_
  rintro rfl
  rw [hc] at hp
  cases hp

structure Foreign (c : Char) : Prop where
  blank : Cut.isBlank c = false
  slash : c ≠ '/'
  quote : c ≠ '"'
  digit : c.isDigit = false
  word : Cut.isWordStart c = false
  single : Cut.single? c = none
  extended : Cut.extended? c = none

theorem foreign {c : Char} (h : 128 ≤ c.toNat) : Foreign c := by
  have hne (d : Char) (hd : d.toNat < 128) : c ≠ d := by
    rintro rfl
    omega
  have hgt {n : UInt32} (hn : n.toNat < 128) : ¬ c.val ≤ n := by
    rw [UInt32.le_iff_toNat_le]
    exact Nat.not_le.mpr (Nat.lt_of_lt_of_le hn h)
  constructor
  · simp [Cut.isBlank, hne _ (by decide : ' '.toNat < 128), hne _ (by decide : '\r'.toNat < 128),
      hne _ (by decide : '\t'.toNat < 128), hne _ (by decide : '\n'.toNat < 128)]
  · exact hne _ (by decide)
  · exact hne _ (by decide)
  · simp [Char.isDigit, hgt (n := 57) (by decide)]
  · have halpha : c.isAlpha = false := by
      change (decide (65 ≤ c.val ∧ c.val ≤ 90) ||
        decide (97 ≤ c.val) && decide (c.val ≤ 122)) = false
      simp [hgt (n := 90) (by decide), hgt (n := 122) (by decide)]
    rw [Cut.isWordStart, halpha, decide_eq_false (hne '_' (by decide))]
    rfl
  · unfold Cut.single?
    split
    all_goals first | rfl | exact absurd h (by decide)
  · unfold Cut.extended?
    split
    all_goals first | rfl | exact absurd h (by decide)

theorem ofBytes?_encode (word : List Char) :
    Keyword.ofBytes? (encode word) = Keyword.ofWord? (String.ofList word) := by
  unfold Keyword.ofBytes? Keyword.ofWord?
  congr 1
  funext k
  rw [Bool.eq_iff_iff, beq_iff_eq, beq_iff_eq, ← bytes_ofList, Array.toList_inj,
    ← String.toByteArray_inj]
  exact ⟨ByteArray.ext, congrArg _⟩

theorem not_mem_takeWhile {q : Char → Bool} (h : q c = false) (cs : List Char) :
    c ∉ cs.takeWhile q := by
  intro hmem
  rw [List.all_eq_true.mp List.all_takeWhile _ hmem] at h
  cases h

theorem count_newline_takeWhile {q : Char → Bool} (h : q '\n' = false) (cs : List Char) :
    (encode (cs.takeWhile q)).count '\n'.toUInt8 = 0 := by
  rw [count_encode, List.count_eq_zero]
  exact not_mem_takeWhile h cs

theorem count_newline_singleton (hc : c ≠ '\n') : (encode [c]).count '\n'.toUInt8 = 0 := by
  rw [count_encode]
  simp [hc]

theorem slice?_ofList (before text after : List Char) :
    slice? (String.ofList (before ++ text ++ after)) (encode before).length
      (encode (before ++ text)).length = some (String.ofList text) := by
  have hi : String.Pos.Raw.IsValid (String.ofList (before ++ text ++ after))
      ⟨(encode before).length⟩ := by
    rw [String.Pos.Raw.isValid_iff_exists_append]
    refine ⟨String.ofList before, String.ofList (text ++ after), ?_, ?_⟩
    · rw [← String.ofList_append, List.append_assoc]
    · rw [← utf8ByteSize_ofList]
      rfl
  have hj : String.Pos.Raw.IsValid (String.ofList (before ++ text ++ after))
      ⟨(encode (before ++ text)).length⟩ := by
    rw [String.Pos.Raw.isValid_iff_exists_append]
    refine ⟨String.ofList (before ++ text), String.ofList after, ?_, ?_⟩
    · rw [← String.ofList_append]
    · rw [← utf8ByteSize_ofList]
      rfl
  have hij : (encode before).length ≤ (encode (before ++ text)).length := by simp
  have hbytes : (String.ofList (before ++ text ++ after)).toByteArray.extract
      (encode before).length (encode (before ++ text)).length =
      (String.ofList text).toByteArray := by
    apply ByteArray.ext
    apply Array.toList_inj.mp
    rw [ByteArray.data_extract, Array.toList_extract, bytes_ofList, bytes_ofList]
    simp [List.extract]
  rw [slice?, if_pos ⟨hij, hi, hj⟩, hbytes, String.fromUTF8?,
    dif_pos (String.ofList text).isValidUTF8]
  rfl

theorem bytes?_ofList (before text after : List Char) :
    bytes? (String.ofList (before ++ text ++ after)) (encode before).length
      (encode (before ++ text)).length = some (encode text) := by
  have hij : (encode before).length ≤ (encode (before ++ text)).length := by simp
  have hj : (encode (before ++ text)).length ≤
      (String.ofList (before ++ text ++ after)).utf8ByteSize := by
    rw [utf8ByteSize_ofList]
    simp
  rw [bytes?, if_pos ⟨hij, hj⟩, ByteArray.data_extract, Array.toList_extract, bytes_ofList]
  simp [List.extract]

end Treewalk

import Treewalk.Proofs.Decimal.Texts
import Treewalk.Session

namespace Treewalk

open Cut

variable {x y : Float} {q : ℚ} {fraction : Bool} {cs : List Char}

theorem Numeral.lexeme (hn : Numeral fraction cs q) (hy : Binary64.IsNearest y q) :
    Lexeme cs (.number y) := by
  cases hn with
  | whole hds => exact .whole hds hy
  | fraction hds hfs => exact .fraction hds hfs hy

theorem Numeral.digits (hn : Numeral fraction cs q) :
    (∃ d ds, cs = d :: ds ∧ d.isDigit) ∧ ∀ c ∈ cs, c.isDigit ∨ c = '.' := by
  have only {ds : List Char} (hds : IsDigits ds) : ∀ c ∈ ds, c.isDigit ∨ c = '.' :=
    fun c hc => .inl (List.all_eq_true.mp hds.2 c hc)
  cases hn with
  | whole hds =>
    obtain ⟨d, ds', heq, hd, -⟩ := hds.exists_cons
    exact ⟨⟨d, ds', heq, hd⟩, only hds⟩
  | fraction hds hfs =>
    obtain ⟨d, ds', rfl, hd, -⟩ := hds.exists_cons
    refine ⟨⟨d, _, rfl, hd⟩, fun c hc => ?_⟩
    obtain hc | hc := List.mem_append.mp hc
    · exact only hds c hc
    · obtain rfl | hc := List.mem_cons.mp hc
      · exact .inr rfl
      · exact only hfs c hc

theorem scanFrom_numeral (hn : Numeral fraction cs q) (hy : Binary64.IsNearest y q) (line : ℕ) :
    scanFrom line cs =
      [.token ⟨.number y, String.ofList cs, line⟩, .token ⟨.eof, "", line⟩] := by
  obtain ⟨⟨d, ds, rfl, hd⟩, honly⟩ := hn.digits
  have hcomment : ¬ ['/', '/'] <+: d :: ds := by
    rintro ⟨rest, hrest⟩
    obtain ⟨rfl, -⟩ := List.cons.inj hrest
    cases hd
  have hlines : (d :: ds).count '\n' = 0 := by
    refine List.count_eq_zero.mpr fun hmem => ?_
    obtain h | h := honly _ hmem <;> cases h
  obtain ⟨more, kind, hpiece, htext, hkind⟩ := covers_first (hn.lexeme hy) (List.append_nil _) hcomment
  -- the text is all there is
  have hall := first_append d ds
  rw [htext, List.append_assoc] at hall
  obtain ⟨rfl, hrest⟩ := List.append_eq_nil_iff.mp (List.append_right_eq_self.mp hall)
  rw [hkind rfl] at hpiece
  rw [List.append_nil] at htext
  rw [scanFrom, item?, hpiece, htext, hrest, hlines, scanFrom]
  rfl

theorem scanFrom_minus (line : ℕ) (cs : List Char) :
    scanFrom line ('-' :: cs) = .token ⟨.punct .minus, "-", line⟩ :: scanFrom line cs := by
  rw [scanFrom, first_eq_single (p := .minus) rfl]
  rfl

/-- A text is read as an expression without a fault, and the expression yields a number, on any
machine and without a change of it. -/
structure ReadsAs (text : String) (y : Float) : Prop where
  scanned : (Scanned.ofSource text).faults = []
  parsed : ∀ nextId, ∃ e c,
    (Cursor.ofTokens (Scanned.ofSource text).tokens nextId).expression = (some e, c) ∧
      c.faults = [] ∧ ∀ fuel m, evaluate (fuel + 2) e m = .ok (.number y) m

theorem ReadsAs.of_numeral {text : String} (hn : Numeral fraction text.toList q)
    (hy : Binary64.IsNearest y q) : ReadsAs text y := by
  have hscan : scan text = _ := scanFrom_numeral hn hy 1
  refine ⟨by rw [Scanned.ofSource, hscan]; rfl, fun nextId => ?_⟩
  rw [Scanned.ofSource, hscan]
  exact ⟨.literal (.number y), _, rfl, rfl, fun _ _ => rfl⟩

theorem ReadsAs.of_minus {text : String} (htext : text.toList = '-' :: cs)
    (hn : Numeral fraction cs q) (hy : Binary64.IsNearest y q) : ReadsAs text (-y) := by
  have hscan : scan text = _ := (congrArg (scanFrom 1) htext).trans (scanFrom_minus 1 cs)
  rw [scanFrom_numeral hn hy] at hscan
  refine ⟨by rw [Scanned.ofSource, hscan]; rfl, fun nextId => ?_⟩
  rw [Scanned.ofSource, hscan]
  exact ⟨.unary ⟨.punct .minus, "-", 1⟩ (.literal (.number y)), _, rfl, rfl, fun _ _ => rfl⟩

theorem Writes.reads {text : String} (h : Writes fraction text.toList x) :
    ∃ y, ReadsAs text y ∧ (y = x ∨ y = 0 ∧ x = -0) := by
  generalize hcs : text.toList = cs at h
  cases h with
  | plain hn hy hx =>
    subst hcs
    exact ⟨_, .of_numeral hn hy, hx⟩
  | minus hn hy hx => exact ⟨_, .of_minus hcs hn hy, .inl hx⟩

/-- The text of a finite number, printed as a value or written as a literal, reads back: as a number
that equals it, and is the same but for the sign of zero. -/
theorem printed_number_reads (x : Float) (hx : x.isFinite = true) (h : Heap) (text : String)
    (ht : text = h.display (.number x) ∨ text = Number.literal x) :
    ∃ y, ReadsAs text y ∧ (y == x) = true ∧ (y = x ∨ y = 0 ∧ x = -0) := by
  have hw : ∃ fraction, Writes fraction text.toList x := by
    obtain rfl | rfl := ht
    · exact Number.writes_display hx
    · obtain ⟨fraction, -, hw⟩ := Number.writes_literal hx
      exact ⟨fraction, hw⟩
  obtain ⟨fraction, hw⟩ := hw
  obtain ⟨y, hreads, hsame⟩ := hw.reads
  exact ⟨y, hreads, Binary64.beq_of_eq hx hsame, hsame⟩

theorem printed_number_reads_tenth : (Float.ofBits 0xbfb999999999999a).isFinite = true ∧
    Heap.empty.display (.number (Float.ofBits 0xbfb999999999999a)) = "-0.1" ∧
    ∃ y, ReadsAs "-0.1" y ∧ (y == Float.ofBits 0xbfb999999999999a) = true := by
  have htext : Heap.empty.display (.number (Float.ofBits 0xbfb999999999999a)) = "-0.1" := by
    decide +kernel
  obtain ⟨y, hreads, heq, -⟩ :=
    printed_number_reads (Float.ofBits 0xbfb999999999999a) rfl Heap.empty _ (.inl htext.symm)
  exact ⟨rfl, htext, y, hreads, heq⟩

end Treewalk

import Treewalk.Proofs.Grammar.Completeness.Statement
import Treewalk.Proofs.Scanning.Seams
import Treewalk.Proofs.Scoping.History
import Treewalk.Proofs.SideBySide.Resolving
import Treewalk.Proofs.SideBySide.Running

/-!
Sessions side by side. They may have come to different numbers and may know different distances for
occurrences that no program of theirs has; a unit goes the same way in both.
-/

namespace Treewalk

open Run

inductive Wording.SameOutcome (w : Wording) : Outcome → Outcome → Prop
  | success : w.SameOutcome .success .success
  | malformed (lexical : List Diagnostic) : List.Forall₂ w.SameFault ds ds' →
      w.SameOutcome (.malformed (lexical ++ ds)) (.malformed (lexical ++ ds'))
  | unresolved : List.Forall₂ w.SameReport ds ds' →
      w.SameOutcome (.unresolved ds) (.unresolved ds')
  | failed : w.NearFault d d' → w.SameOutcome (.failed d) (.failed d')
  | unfinished : w.SameOutcome .unfinished .unfinished

theorem Run.Agrees.ends {w : Wording} {P : Pairing} {μ : Array Bool} {m m' n n' : Machine}
    {x x' : Run Unit} (h : Agrees w P μ m m' same (x n) (x' n')) :
    w.SameOutcome (.ofResult (x n)) (.ofResult (x' n')) ∧
      (Run.after n' x').sink = (Run.after n x).sink := by
  unfold Run.after
  generalize x n = r, x' n' = r' at h ⊢
  cases h with
  | ok _ hr => exact ⟨.success, hr.alike.sink⟩
  | fault hd hr => exact ⟨.failed hd, hr.alike.sink⟩
  | exhausted hr => exact ⟨.unfinished, hr.alike.sink⟩

theorem nil_iff_of_forall₂ {R : α → α → Prop} {as bs : List α} (h : List.Forall₂ R as bs) :
    as = [] ↔ bs = [] := by
  rw [← List.length_eq_zero_iff, ← List.length_eq_zero_iff, h.length_eq]

namespace Session

/-- Sessions that will go the same way. `P` has the occurrences of the units so far; what is not yet
numbered has no distance. -/
structure Alike (w : Wording) (P : Pairing) (μ : Array Bool) (s s' : Session) : Prop where
  machine : s.machine.Alike w P μ s'.machine
  home : Marked μ (s.machine.heap.chain s.machine.current) []
  used : ∀ i i' d, P i i' d → i < s.nextId ∧ i' < s'.nextId
  unused : ∀ i, s.nextId ≤ i → s.machine.distances[i]? = none
  unused' : ∀ i, s'.nextId ≤ i → s'.machine.distances[i]? = none

section Reading

variable {w : Wording} {P : Pairing}

theorem reads_parse {s : Session} (h : (s.parse source).2.1 = []) :
    Grammar.ReadsDecls (Scanned.ofSource source).code s.nextId (s.parse source).1 []
      (s.parse source).2.2.nextId :=
  Grammar.readsDecls_program (Cursor.eof_kind_ofTokens _ _) (List.append_eq_nil_iff.mp h).2

theorem parse_of_reads {s : Session} (hf : (Scanned.ofSource source).faults = [])
    (h : Grammar.ReadsDecls (Scanned.ofSource source).code s.nextId ss [] n₁) :
    (s.parse source).1 = ss ∧ (s.parse source).2.1 = [] := by
  let c := Cursor.ofTokens (Scanned.ofSource source).tokens s.nextId
  obtain ⟨hfaults, hss, -⟩ := (Grammar.readsDecls_iff_program (c := c)
    (Cursor.eof_kind_ofTokens _ s.nextId)).mp h
  exact ⟨hss, List.append_eq_nil_iff.mpr ⟨hf, hfaults⟩⟩

theorem alike_parse (hw : w.IsPlain) (s s' : Session) (source : String)
    (hP : ∀ k, ∃ d, P (s.nextId + k) (s'.nextId + k) d) :
    Stmt.AlikeAll w P [] (s.parse source).1 (s'.parse source).1 ∧
      (∃ lexical ds ds', (s.parse source).2.1 = lexical ++ ds ∧
        (s'.parse source).2.1 = lexical ++ ds' ∧ List.Forall₂ w.SameFault ds ds') ∧
      ∀ k, ∃ d, P ((s.parse source).2.2.nextId + k) ((s'.parse source).2.2.nextId + k) d := by
  have hc : (Cursor.ofTokens (Scanned.ofSource source).tokens s.nextId).Alike w P
      (Cursor.ofTokens (Scanned.ofSource source).tokens s'.nextId) :=
    ⟨List.forall₂_same.mpr fun t _ => hw.refl t, hw.refl _, .nil, hP⟩
  obtain ⟨hs, hd⟩ := Cursor.alike_program hw.toKeepsNames hc
  exact ⟨hs [], ⟨_, _, _, rfl, rfl, hd.faults⟩, hd.numbers⟩

theorem nextId_parse (s s' : Session) (source : String) :
    ∃ k, (s.parse source).2.2.nextId = s.nextId + k ∧
      (s'.parse source).2.2.nextId = s'.nextId + k := by
  have h := (alike_parse .exact s s' source (P := .shift s.nextId s'.nextId)
    fun k => ⟨none, k, rfl, rfl⟩).2.2 0
  obtain ⟨-, k, hk, hk'⟩ := h
  exact ⟨k, hk, hk'⟩

theorem unused_prepared {s : Session} (hp : (s.parse source).2.1 = [])
    (hu : ∀ i, s.nextId ≤ i → s.machine.distances[i]? = none) :
    (∀ i < s.nextId, (s.prepared source).machine.distances[i]? = s.machine.distances[i]?) ∧
      ∀ i, (s.parse source).2.2.nextId ≤ i →
        (s.prepared source).machine.distances[i]? = none := by
  obtain ⟨hle, -, hnum⟩ := formed_parse hp
  constructor
  · intro i hi
    refine agree_prepared fun hmem => ?_
    have hge := (hnum.2 i hmem).1
    omega
  · intro i hi
    rw [agree_prepared fun hmem => ?_]
    · exact hu i (Nat.le_trans hle hi)
    · have hlt := (hnum.2 i hmem).2
      omega

end Reading

namespace Alike

variable {w : Wording} {P : Pairing} {μ : Array Bool} {s s' : Session}

theorem renumber (h : s.Alike w P μ s') {n n' : Nat} (hn : s.nextId ≤ n) (hn' : s'.nextId ≤ n') :
    Alike w P μ { s with nextId := n } { s' with nextId := n' } := by
  refine ⟨h.machine, h.home, fun i i' d hp => ?_, fun i hi => h.unused i (Nat.le_trans hn hi),
    fun i hi => h.unused' i (Nat.le_trans hn' hi)⟩
  obtain ⟨hi, hi'⟩ := h.used i i' d hp
  exact ⟨Nat.lt_of_lt_of_le hi hn, Nat.lt_of_lt_of_le hi' hn'⟩

theorem prepared (hw : w.IsPlain) (h : s.Alike w P μ s') (hp : (s.parse source).2.1 = [])
    (hp' : (s'.parse source).2.1 = []) :
    List.Forall₂ w.SameReport ((s.parse source).2.2.resolve (s.parse source).1).1
        ((s'.parse source).2.2.resolve (s'.parse source).1).1 ∧
      ∃ Q, Alike w Q μ (s.prepared source) (s'.prepared source) ∧
        Stmt.AlikeAll w Q [] (s.parse source).1 (s'.parse source).1 := by
  obtain ⟨hle, -, hnum⟩ := formed_parse hp
  obtain ⟨hle', -, -⟩ := formed_parse hp'
  obtain ⟨k, hk, hk'⟩ := nextId_parse s s' source
  obtain ⟨hkeep, hfree⟩ := unused_prepared hp h.unused
  obtain ⟨hkeep', hfree'⟩ := unused_prepared hp' h.unused'
  -- the resolutions, side by side
  have hr : (Treewalk.resolve (s.parse source).1 s.machine.distances).Alike w s.nextId
      s'.nextId (Treewalk.resolve (s'.parse source).1 s'.machine.distances) := by
    refine (alike_parse hw s s' source fun k => ⟨none, k, rfl, rfl⟩).1.resolve hw.toKeepsNames _
      ⟨rfl, .nil, fun k => ?_⟩
    rw [h.unused _ (Nat.le_add_right _ k), h.unused' _ (Nat.le_add_right _ k)]
  refine ⟨hr.faults, ?_⟩
  let fresh : Pairing := fun i i' d => Pairing.shift s.nextId s'.nextId i i' d ∧
    (s.prepared source).machine.distances[i]? = d
  have hfresh {i i' : Nat} {d : Option Nat} (hd : fresh i i' d) :
      (s'.prepared source).machine.distances[i']? = d := by
    obtain ⟨⟨j, rfl, rfl⟩, hd⟩ := hd
    rw [← hd]
    exact hr.distances j
  refine ⟨fun i i' d => P i i' d ∨ fresh i i' d ∧ i < (s.parse source).2.2.nextId,
    ⟨h.machine.settle (fun _ _ _ => .inl) fun i i' d hpair => ?_, h.home, fun i i' d hpair => ?_,
      hfree, hfree'⟩, ?_⟩
  · obtain hpair | ⟨hpair, -⟩ := hpair
    · obtain ⟨hi, hi'⟩ := h.used i i' d hpair
      obtain ⟨hd, hd'⟩ := h.machine.distances i i' d hpair
      exact ⟨(hkeep i hi).trans hd, (hkeep' i' hi').trans hd'⟩
    · exact ⟨hpair.2, hfresh hpair⟩
  · obtain hpair | ⟨⟨⟨j, rfl, rfl⟩, -⟩, hlt⟩ := hpair
    · obtain ⟨hi, hi'⟩ := h.used i i' d hpair
      exact ⟨Nat.lt_of_lt_of_le hi hle, Nat.lt_of_lt_of_le hi' hle'⟩
    · refine ⟨hlt, ?_⟩
      change s'.nextId + j < (s'.parse source).2.2.nextId
      omega
  · refine (alike_parse hw s s' source (P := fresh) fun k => ⟨_, ⟨k, rfl, rfl⟩, rfl⟩).1.mono ?_
    exact fun i hi i' d hd => .inr ⟨hd, (hnum.2 i hi).2⟩

theorem interpreted {ss ss' : List Stmt} (h : s.Alike w P μ s') (hss : Stmt.AlikeAll w P [] ss ss')
    (fuel : Nat) :
    w.SameOutcome (.ofResult (Treewalk.interpret fuel ss s.machine))
        (.ofResult (Treewalk.interpret fuel ss' s'.machine)) ∧
      ∃ μ₁, Alike w P μ₁ { s with machine := Run.after s.machine (Treewalk.interpret fuel ss) }
        { s' with machine := Run.after s'.machine (Treewalk.interpret fuel ss') } := by
  have hagrees := agrees_interpret fuel hss h.machine h.home
  refine ⟨hagrees.ends.1, ?_⟩
  have hreached {μ₁ : Array Bool} {m₁ m₁' : Machine}
      (hr : Reaches w P μ s.machine s'.machine μ₁ m₁ m₁') :
      Alike w P μ₁ { s with machine := m₁ } { s' with machine := m₁' } := by
    refine ⟨hr.alike, hr.marked h.home, h.used, fun i hi => ?_, fun i hi => ?_⟩
    · exact hr.distances ▸ h.unused i hi
    · exact hr.distances' ▸ h.unused' i hi
  unfold Run.after
  generalize Treewalk.interpret fuel ss s.machine = r,
    Treewalk.interpret fuel ss' s'.machine = r' at hagrees ⊢
  cases hagrees with
  | ok _ hr | fault _ hr | exhausted hr => exact ⟨_, hreached hr⟩

theorem unit (hw : w.IsPlain) (h : s.Alike w P μ s') (fuel : Nat) (source : String) :
    w.SameOutcome (s.runWith fuel source).1 (s'.runWith fuel source).1 ∧
      ∃ P₁ μ₁, Alike w P₁ μ₁ (s.runWith fuel source).2 (s'.runWith fuel source).2 := by
  obtain ⟨-, ⟨lexical, ds, ds', hds, hds', hfaults⟩, -⟩ :=
    alike_parse hw s s' source (P := fun _ _ _ => True) fun _ => ⟨none, trivial⟩
  have hnil : (s.parse source).2.1 = [] ↔ (s'.parse source).2.1 = [] := by
    rw [hds, hds', List.append_eq_nil_iff, List.append_eq_nil_iff, nil_iff_of_forall₂ hfaults]
  by_cases hp : (s.parse source).2.1 = []
  · have hp' := hnil.mp hp
    obtain ⟨hreports, Q, hprepared, hss⟩ := h.prepared hw hp hp'
    by_cases hr : ((s.parse source).2.2.resolve (s.parse source).1).1 = []
    · have hr' := (nil_iff_of_forall₂ hreports).mp hr
      rw [runWith_accepted ⟨hp, hr⟩, runWith_accepted ⟨hp', hr'⟩]
      obtain ⟨houtcome, μ₁, hafter⟩ := hprepared.interpreted hss fuel
      exact ⟨houtcome, Q, μ₁, hafter⟩
    · have hr' := mt (nil_iff_of_forall₂ hreports).mpr hr
      rw [runWith_unresolved hp hr, runWith_unresolved hp' hr']
      exact ⟨.unresolved hreports, Q, μ, hprepared⟩
  · have hp' := mt hnil.mpr hp
    rw [runWith_malformed hp, runWith_malformed hp', hds, hds']
    exact ⟨.malformed lexical hfaults, P, μ,
      h.renumber (s.nextId_le_parse source) (s'.nextId_le_parse source)⟩

end Alike

theorem Alike.addNative {w : Wording} {P : Pairing} {μ : Array Bool} {s s' : Session}
    (h : s.Alike w P μ s') {native : Native} (hf : native.Fixed) :
    (s.addNative native).Alike w P μ (s'.addNative native) := by
  refine ⟨h.machine.addNative hf, ?_, h.used, h.unused, h.unused'⟩
  simpa [Session.addNative, Machine.addNative] using h.home

theorem alike_new (w : Wording) (sink : Sink) (now : Float) :
    (new sink now).Alike w (fun _ _ _ => False) #[false] (new sink now) :=
  ⟨Machine.alike_new w sink now, (Machine.alike_new w sink now).home, fun _ _ _ => False.elim,
    fun _ _ => rfl, fun _ _ => rfl⟩

/-- Sessions in which the functions of the host are fixed functions of their arguments. -/
inductive Reachable : Session → Prop
  | new (sink : Sink) (now : Float) : Reachable (.new sink now)
  | native : Reachable s → native.Fixed → Reachable (s.addNative native)
  | unit (fuel : Nat) (source : String) : Reachable s → Reachable (s.runWith fuel source).2

theorem Reachable.alike_self (hw : w.IsPlain) (h : Reachable s) : ∃ P μ, s.Alike w P μ s := by
  induction h with
  | new sink now => exact ⟨_, _, alike_new w sink now⟩
  | native _ hf ih =>
    obtain ⟨P, μ, ih⟩ := ih
    exact ⟨P, μ, ih.addNative hf⟩
  | unit fuel source _ ih =>
    obtain ⟨P, μ, ih⟩ := ih
    exact (ih.unit hw fuel source).2

end Session

end Treewalk

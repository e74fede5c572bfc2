import Treewalk.Proofs.SideBySide.Session

namespace Treewalk

namespace Wording

theorem sameFault_eq (h : exact.SameFault d d') : d' = d := by
  cases h with
  | syntactic ht => rw [show _ = _ from ht]

theorem sameReport_eq (h : exact.SameReport d d') : d' = d := by
  cases h with
  | resolution ht => rw [show _ = _ from ht]

theorem nearFault_eq (h : exact.NearFault d d') : d' = d := by
  cases h with
  | runtime ht =>
    obtain ⟨_, ht⟩ := ht
    rw [← show _ = _ from ht]
    rfl
  | undefined ht =>
    obtain ⟨_, ht⟩ := ht
    rw [← show _ = _ from ht]
    rfl
  | output => rfl

theorem eq_of_forall₂ {R : α → α → Prop} (hR : ∀ {a b}, R a b → b = a) {as bs : List α}
    (h : List.Forall₂ R as bs) : bs = as := by
  induction h with
  | nil => rfl
  | cons h _ ih => rw [hR h, ih]

theorem sameOutcome_eq (h : exact.SameOutcome o o') : o' = o := by
  cases h with
  | success | unfinished => rfl
  | malformed lexical hds => rw [eq_of_forall₂ sameFault_eq hds]
  | unresolved hds => rw [eq_of_forall₂ sameReport_eq hds]
  | failed hd => rw [nearFault_eq hd]

end Wording

namespace Session

/-- How units end that run one after another, each with its fuel, and what is printed by then. -/
def transcript : Session → List (Nat × String) → List (Outcome × Sink)
  | _, [] => []
  | s, (fuel, source) :: units =>
    let (outcome, s) := s.runWith fuel source
    (outcome, s.machine.sink) :: s.transcript units

namespace Alike

variable {P : Pairing} {μ : Array Bool} {s s' : Session}

theorem transcript_eq (h : s.Alike .exact P μ s') (units : List (Nat × String)) :
    s'.transcript units = s.transcript units := by
  induction units generalizing s s' P μ with
  | nil => rfl
  | cons unit units ih =>
    obtain ⟨houtcome, P₁, μ₁, h₁⟩ := h.unit .exact unit.1 unit.2
    simp only [transcript, Wording.sameOutcome_eq houtcome, h₁.machine.sink, ih h₁]

theorem rejected {w : Wording} (h : s.Alike w P μ s) (hr : ¬ s.Accepts source) (fuel : Nat) :
    Alike w P μ (s.runWith fuel source).2 s := by
  by_cases hp : (s.parse source).2.1 = []
  · rw [runWith_unresolved hp fun hres => hr ⟨hp, hres⟩]
    obtain ⟨hkeep, hfree⟩ := unused_prepared hp h.unused
    refine ⟨h.machine.settle (fun _ _ _ => id) fun i i' d hpair => ?_, h.home,
      fun i i' d hpair => ?_, hfree, h.unused'⟩
    · obtain ⟨hd, hd'⟩ := h.machine.distances i i' d hpair
      exact ⟨(hkeep i (h.used i i' d hpair).1).trans hd, hd'⟩
    · obtain ⟨hi, hi'⟩ := h.used i i' d hpair
      exact ⟨Nat.lt_of_lt_of_le hi (s.nextId_le_parse source), hi'⟩
  · rw [runWith_malformed hp]
    exact h.renumber (s.nextId_le_parse source) (Nat.le_refl s.nextId)

end Alike

theorem not_accepts {s : Session} (hr : (s.runWith fuel source).1.isMalformed ∨
    (s.runWith fuel source).1.isUnresolved) : ¬ s.Accepts source := by
  intro ha
  rw [runWith_accepted ha] at hr
  revert hr
  generalize Treewalk.interpret fuel (s.parse source).1 (s.prepared source).machine = r
  unfold Outcome.ofResult
  split <;> simp [Outcome.isMalformed, Outcome.isUnresolved]

/-- A unit that is rejected prints nothing, and what comes later is as if it had not been there. The
host functions are pure, and the clock stands still. -/
theorem transcript_after_rejected (h : Reachable s) (fuel : Nat) (source : String)
    (hr : (s.runWith fuel source).1.isMalformed ∨ (s.runWith fuel source).1.isUnresolved)
    (units : List (Nat × String)) :
    (s.runWith fuel source).2.machine.sink = s.machine.sink ∧
      (s.runWith fuel source).2.transcript units = s.transcript units := by
  obtain ⟨P, μ, hself⟩ := h.alike_self .exact
  have hafter := hself.rejected (not_accepts hr) fuel
  exact ⟨hafter.machine.sink.symm, (hafter.transcript_eq units).symm⟩

theorem transcript_after_rejected_return :
    (((new .unlimited 0).runWith 9 "var a = 1;").2.runWith 9
        "\x7b var b; b; \x7d return;").1.isUnresolved ∧
      (((new .unlimited 0).runWith 9 "var a = 1;").2.runWith 9
        "\x7b var b; b; \x7d return;").2.transcript [(9, "\x7b var c = a; print c; \x7d")] =
      ((new .unlimited 0).runWith 9 "var a = 1;").2.transcript
        [(9, "\x7b var c = a; print c; \x7d")] := by
  have hr : (((new .unlimited 0).runWith 9 "var a = 1;").2.runWith 9
      "\x7b var b; b; \x7d return;").1.isUnresolved := by decide +kernel
  have hs : Reachable ((new .unlimited 0).runWith 9 "var a = 1;").2 := .unit 9 _ (.new .unlimited 0)
  exact ⟨hr, (transcript_after_rejected hs 9 _ (.inr hr) _).2⟩

end Session

end Treewalk

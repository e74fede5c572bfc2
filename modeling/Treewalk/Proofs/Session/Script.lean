import Treewalk.Proofs.Running.Origin
import Treewalk.Proofs.Scoping.History

namespace Treewalk

open Run

inductive Entry
  | native (native : Native)
  | unit (fuel : Nat) (source : String)

def Entry.source? : Entry → Option String
  | native _ => none
  | unit _ source => some source

namespace Session

def enter (s : Session) : Entry → Session
  | .native native => s.addNative native
  | .unit fuel source => (s.runWith fuel source).2

def outcome? (s : Session) : Entry → Option Outcome
  | .native _ => none
  | .unit fuel source => some (s.runWith fuel source).1

def play (s : Session) (entries : List Entry) : Session := entries.foldl enter s

def outcomes : Session → List Entry → List Outcome
  | _, [] => []
  | s, entry :: entries => (s.outcome? entry).toList ++ (s.enter entry).outcomes entries

theorem play_append (s : Session) (before after : List Entry) :
    s.play (before ++ after) = (s.play before).play after := List.foldl_append

variable {s : Session} {fuel : Nat} {source : String}

theorem play_induction {R : Session → Prop} (hnative : ∀ s native, R s → R (s.addNative native))
    (hunit : ∀ s fuel source, R s → R (s.runWith fuel source).2) (entries : List Entry) (h : R s) :
    R (s.play entries) := by
  induction entries generalizing s with
  | nil => exact h
  | cons entry entries ih =>
    cases entry with
    | native native => exact ih (hnative s native h)
    | unit fuel source => exact ih (hunit s fuel source h)

theorem machine_runWith (s : Session) (fuel : Nat) (source : String) :
    ∃ D, (s.runWith fuel source).2.machine = { s.machine with distances := D } ∨
      (s.runWith fuel source).2.machine =
        after { s.machine with distances := D } (Treewalk.interpret fuel (s.parse source).1) := by
  obtain ⟨-, h⟩ | ⟨-, -, h⟩ | ⟨-, h⟩ := s.runWith_cases fuel source
  · exact ⟨s.machine.distances, .inl (by rw [h]; rfl)⟩
  · exact ⟨(s.prepared source).machine.distances, .inl (by rw [h]; rfl)⟩
  · exact ⟨(s.prepared source).machine.distances, .inr (by rw [h]; rfl)⟩

theorem interpret_of_failed (h : (s.runWith fuel source).1 = .failed d) :
    s.Accepts source ∧ Treewalk.interpret fuel (s.parse source).1 (s.prepared source).machine =
      .error (.fault d) (s.runWith fuel source).2.machine := by
  obtain hp | ⟨hp, hr⟩ | ha := s.accepts_cases source
  · rw [runWith_malformed hp] at h
    cases h
  · rw [runWith_unresolved hp hr] at h
    cases h
  · rw [runWith_accepted ha] at h ⊢
    refine ⟨ha, ?_⟩
    change _ = EStateM.Result.error _ (after _ _)
    cases hi : Treewalk.interpret fuel (s.parse source).1 (s.prepared source).machine with
    | ok a m =>
      rw [hi] at h
      cases h
    | error halt m =>
      rw [hi] at h
      rw [after_of_error hi]
      cases halt with
      | exhausted => cases h
      | fault d =>
        cases h
        rfl

end Session

theorem starts_of_interpret {ss : List Stmt} {m m' : Machine}
    (h : interpret fuel ss m = .error (.fault d) m') :
    ∃ p, Starts fuel ss m p ∧ p.Fails d m' := by
  induction ss generalizing m with
  | nil => cases h
  | cons s ss ih =>
    rw [interpret] at h
    obtain h | ⟨c, m₁, hs, h⟩ := bind_error h
    · exact ⟨_, .head, h⟩
    · obtain ⟨p, hp, hfails⟩ := ih h
      exact ⟨p, .tail hs hp, hfails⟩

theorem Session.origin_of_failed {s : Session} (h : (s.runWith fuel source).1 = .failed d) :
    ∃ q m, Executes s fuel source q ∧ q.Puts d m ∧
      (s.runWith fuel source).2.machine = { m with current := s.machine.current } := by
  obtain ⟨ha, hi⟩ := interpret_of_failed h
  obtain ⟨p, hp, hfails⟩ := starts_of_interpret hi
  have hcalls : ∀ p q, Calls p q → Executes s fuel source p → Executes s fuel source q :=
    fun _ _ hc hp => .call hp hc
  obtain ⟨q, m, hq, hputs, hm⟩ := hfails.origin hcalls (.start ha hp)
  refine ⟨q, m, hq, hputs, ?_⟩
  have hcurrent := ((evaluates_interpret fuel (s.parse source).1).frame
    (s.prepared source).machine).current
  rw [after_of_error hi] at hcurrent
  rw [hm, hcurrent]
  rfl

end Treewalk

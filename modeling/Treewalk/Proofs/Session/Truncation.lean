import Treewalk.Proofs.Running.Output
import Treewalk.Proofs.Session.Script

/-!
Sessions whose output is cut off. Beside the same session with a sink that takes everything, a
session goes the same way up to the unit in which a text is refused first. That unit ends at the
refused `print`, and from there on nothing is written any more.
-/

namespace Treewalk

open Run

namespace Session

variable {s u : Session} {fuel : Nat} {source : String}

theorem later_play (s : Session) (entries : List Entry) :
    s.machine.sink.Later (s.play entries).machine.sink := by
  refine play_induction (R := fun s' => s.machine.sink.Later s'.machine.sink) (fun _ _ h => h) ?_
    entries (.refl _)
  rintro s' fuel source h
  obtain ⟨D, hm | hm⟩ := s'.machine_runWith fuel source
  · rw [hm]
    exact h
  · rw [hm]
    exact h.trans ((evaluates_interpret fuel (s'.parse source).1).later
      { s'.machine with distances := D })

theorem closed_play (hs : s.machine.sink.Closed) (entries : List Entry) :
    (s.play entries).machine.sink.textFrom 0 = s.machine.sink.textFrom 0 := by
  have hkept : (s.play entries).machine.sink.Closed ∧
      (s.play entries).machine.sink.textFrom 0 = s.machine.sink.textFrom 0 := by
    refine play_induction (R := fun s' => s'.machine.sink.Closed ∧
      s'.machine.sink.textFrom 0 = s.machine.sink.textFrom 0) (fun _ _ h => h) ?_ entries ⟨hs, rfl⟩
    rintro s' fuel source ⟨hc, hw⟩
    obtain ⟨D, hm | hm⟩ := s'.machine_runWith fuel source
    · rw [hm]
      exact ⟨hc, hw⟩
    · have hx := evaluates_interpret fuel (s'.parse source).1
      rw [hm]
      exact ⟨hc.later (hx.later { s'.machine with distances := D }),
        (hx.closed { s'.machine with distances := D } hc).trans hw⟩
  exact hkept.2

end Session

theorem Starts.closed (h : Starts fuel ss m p) (hm : m.sink.Closed) : p.machine.sink.Closed := by
  induction h with
  | head => exact hm
  | @tail s m c m₁ ss p he _ ih =>
    refine ih ?_
    rw [← after_of_ok he]
    exact hm.later ((evaluates_execute fuel s).later m)

theorem Executes.closed {s : Session} (h : Executes s fuel source p) (hs : s.machine.sink.Closed) :
    p.machine.sink.Closed := by
  induction h with
  | start _ hp => exact hp.closed hs
  | call _ hc ih => exact hc.closed ih

namespace Session

/-- The same session but for its sink, which has taken the same so far and will take anything. -/
structure Shadows (s u : Session) : Prop where
  machine : Unlimited s.machine u.machine
  nextId : u.nextId = s.nextId

structure Severs (s u : Session) (fuel : Nat) (source : String) : Prop where
  outcome : ∃ reason, (s.runWith fuel source).1 = .failed (.output reason)
  closed : (s.runWith fuel source).2.machine.sink.Closed
  more : ∃ more, (u.runWith fuel source).2.machine.sink.textFrom 0 =
    (s.runWith fuel source).2.machine.sink.textFrom 0 ++ more

namespace Shadows

variable {s u : Session}

theorem eq (h : s.Shadows u) : ∃ sink : Sink, sink.written = s.machine.sink.written ∧
    (∀ texts text, sink.refusal texts text = none) ∧
    u = ⟨{ s.machine with sink }, s.nextId⟩ := by
  obtain ⟨m, n⟩ := u
  obtain ⟨⟨-, hw, ht⟩, rfl⟩ := h
  exact ⟨_, hw, ht, rfl⟩

theorem closes (h : s.Shadows u) : s.machine.sink.Closes := h.machine.closes

theorem addNative (h : s.Shadows u) (native : Native) :
    (s.addNative native).Shadows (u.addNative native) := by
  obtain ⟨sink, hw, ht, rfl⟩ := h.eq
  exact ⟨.mk (m := (s.addNative native).machine) h.closes hw ht, rfl⟩

theorem parse (h : s.Shadows u) (source : String) : (u.parse source).1 = (s.parse source).1 ∧
    (u.parse source).2.1 = (s.parse source).2.1 ∧
    (s.parse source).2.2.Shadows (u.parse source).2.2 := by
  obtain ⟨sink, hw, ht, rfl⟩ := h.eq
  exact ⟨rfl, rfl, .mk (m := s.machine) h.closes hw ht, rfl⟩

theorem prepared (h : s.Shadows u) (source : String) :
    ((u.parse source).2.2.resolve (u.parse source).1).1 =
      ((s.parse source).2.2.resolve (s.parse source).1).1 ∧
    (s.prepared source).Shadows (u.prepared source) := by
  obtain ⟨sink, hw, ht, rfl⟩ := h.eq
  exact ⟨rfl, .mk (m := (s.prepared source).machine) h.closes hw ht, rfl⟩

theorem unit (h : s.Shadows u) (fuel : Nat) (source : String) :
    (s.runWith fuel source).1 = (u.runWith fuel source).1 ∧
      (s.runWith fuel source).2.Shadows (u.runWith fuel source).2 ∨ s.Severs u fuel source := by
  obtain ⟨hstmts, hfaults, hparsed⟩ := h.parse source
  obtain ⟨hreport, hprepared⟩ := h.prepared source
  by_cases hp : (s.parse source).2.1 = []
  · have hpu := hfaults.trans hp
    by_cases hr : ((s.parse source).2.2.resolve (s.parse source).1).1 = []
    · have hs : s.runWith fuel source = _ := runWith_accepted ⟨hp, hr⟩
      have hu : u.runWith fuel source = _ := runWith_accepted ⟨hpu, hreport.trans hr⟩
      rw [hstmts] at hu
      cases (evaluates_interpret fuel (s.parse source).1).follows hprepared.machine with
      | ok hm hmu h₁ =>
        rw [hm, after_of_ok hm] at hs
        rw [hmu, after_of_ok hmu] at hu
        rw [hs, hu]
        exact .inl ⟨rfl, h₁, hprepared.nextId⟩
      | @error e _ _ hm hmu h₁ =>
        rw [hm, after_of_error hm] at hs
        rw [hmu, after_of_error hmu] at hu
        rw [hs, hu]
        exact .inl ⟨by cases e <;> rfl, h₁, hprepared.nextId⟩
      | cut hm hc hmore =>
        rw [hm, after_of_error hm] at hs
        refine .inr ⟨⟨_, by rw [hs]; rfl⟩, by rw [hs]; exact hc, ?_⟩
        rw [hs, hu]
        exact ⟨_, hmore⟩
    · rw [runWith_unresolved hp hr, runWith_unresolved hpu (hreport ▸ hr), hreport]
      exact .inl ⟨rfl, hprepared⟩
  · rw [runWith_malformed hp, runWith_malformed (hfaults ▸ hp), hfaults]
    exact .inl ⟨rfl, hparsed⟩

theorem textFrom_eq (h : s.Shadows u) :
    s.machine.sink.textFrom 0 = u.machine.sink.textFrom 0 := by
  obtain ⟨sink, hw, -, rfl⟩ := h.eq
  exact Sink.textFrom_congr hw.symm

theorem enter (h : s.Shadows u) (entry : Entry) :
    s.outcome? entry = u.outcome? entry ∧ (s.enter entry).Shadows (u.enter entry) ∨
      ∃ fuel source, entry = .unit fuel source ∧ s.Severs u fuel source := by
  cases entry with
  | native native => exact .inl ⟨rfl, h.addNative native⟩
  | unit fuel source =>
    obtain ⟨ho, h₁⟩ | hcut := h.unit fuel source
    · exact .inl ⟨congrArg some ho, h₁⟩
    · exact .inr ⟨fuel, source, rfl, hcut⟩

theorem play (h : s.Shadows u) (entries : List Entry) :
    s.outcomes entries = u.outcomes entries ∧ (s.play entries).Shadows (u.play entries) ∨
    ∃ before fuel source later, entries = before ++ .unit fuel source :: later ∧
      s.outcomes before = u.outcomes before ∧ (s.play before).Shadows (u.play before) ∧
      (s.play before).Severs (u.play before) fuel source := by
  induction entries generalizing s u with
  | nil => exact .inl ⟨rfl, h⟩
  | cons entry entries ih =>
    obtain ⟨ho, h₁⟩ | ⟨fuel, source, rfl, hcut⟩ := h.enter entry
    · obtain ⟨houtcomes, hplay⟩ | ⟨before, fuel, source, later, rfl, houtcomes, hrest⟩ := ih h₁
      · exact .inl ⟨by rw [outcomes, outcomes, ho, houtcomes], hplay⟩
      · exact .inr ⟨entry :: before, fuel, source, later, rfl,
          by rw [outcomes, outcomes, ho, houtcomes], hrest⟩
    · exact .inr ⟨[], fuel, source, entries, rfl, rfl, h, hcut⟩

end Shadows

theorem Severs.textFrom {s u : Session} (h : s.Severs u fuel source) (later : List Entry) :
    ∃ rest, ((u.runWith fuel source).2.play later).machine.sink.textFrom 0 =
      ((s.runWith fuel source).2.play later).machine.sink.textFrom 0 ++ rest := by
  obtain ⟨more, hmore⟩ := h.more
  obtain ⟨-, ⟨_, hlater⟩, -⟩ := (u.runWith fuel source).2.later_play later
  obtain ⟨more', hmore'⟩ := Sink.textFrom_append hlater
  refine ⟨more ++ more', ?_⟩
  rw [hmore', hmore, closed_play h.closed later, String.append_assoc]

/-- A unit ends at a `print` that the sink refuses, with the machine that this leaves; the
statements after the one with the `print` make no difference. -/
structure CutOff (s : Session) (fuel : Nat) (source reason : String) : Prop where
  outcome : (s.runWith fuel source).1 = .failed (.output reason)
  refused : ∃ n e m v m₁ m₂, Executes s fuel source ⟨n + 1, .stmt (.print e), m⟩ ∧
    Treewalk.evaluate n e m = .ok v m₁ ∧ print v m₁ = .error (.fault (.output reason)) m₂ ∧
    (s.runWith fuel source).2.machine = { m₂ with current := s.machine.current }
  stops : ∃ done stmt rest, (s.parse source).1 = done ++ stmt :: rest ∧ ∀ rest',
    Treewalk.interpret fuel (done ++ stmt :: rest') (s.prepared source).machine =
      .error (.fault (.output reason)) (s.runWith fuel source).2.machine

def Silent (s : Session) (fuel : Nat) (source : String) : Prop :=
  ∀ n e m, Executes s fuel source ⟨n, .stmt (.print e), m⟩ → ∀ c m',
    execute n (.print e) m ≠ .ok c m'

end Session

theorem split_of_interpret {ss : List Stmt} {m m' : Machine}
    (h : interpret fuel ss m = .error e m') :
    ∃ done s rest, ss = done ++ s :: rest ∧ ∀ rest',
      interpret fuel (done ++ s :: rest') m = .error e m' := by
  induction ss generalizing m with
  | nil => cases h
  | cons s ss ih =>
    rw [interpret] at h
    obtain h | ⟨c, m₁, hs, h⟩ := bind_error h
    · refine ⟨[], s, ss, rfl, fun rest' => ?_⟩
      rw [List.nil_append, interpret, bind_of_error h]
    · obtain ⟨done, s', rest, rfl, hstop⟩ := ih h
      refine ⟨s :: done, s', rest, rfl, fun rest' => ?_⟩
      rw [List.cons_append, interpret, bind_of_ok hs]
      exact hstop rest'

namespace Session

variable {s u : Session} {fuel : Nat} {source : String}

theorem cutOff_of_failed (h : (s.runWith fuel source).1 = .failed (.output reason)) :
    s.CutOff fuel source reason := by
  obtain ⟨q, m₂, hq, hputs, hm⟩ := origin_of_failed h
  refine ⟨h, ?_, split_of_interpret (interpret_of_failed h).2⟩
  cases hputs with
  | refused he hprint => exact ⟨_, _, _, _, _, m₂, hq, he, hprint, hm⟩

theorem silent_of_closed (hs : s.machine.sink.Closed) (entries : List Entry) (fuel : Nat)
    (source : String) : (s.play entries).Silent fuel source := by
  intro n e m hp
  exact print_fails (m := m) (hp.closed (hs.later (s.later_play entries)))

/-- A session beside the same one with a sink that takes everything. It goes the same way up to the
end, or up to the unit of the first text that is refused; that unit fails there, and no later one
prints anything. -/
structure Truncates (cut full : Session) (entries : List Entry) : Prop where
  text : ∃ rest, (full.play entries).machine.sink.textFrom 0 =
    (cut.play entries).machine.sink.textFrom 0 ++ rest
  units : cut.outcomes entries = full.outcomes entries ∧
      (cut.play entries).machine.sink.textFrom 0 = (full.play entries).machine.sink.textFrom 0 ∨
    ∃ before fuel source later reason, entries = before ++ .unit fuel source :: later ∧
      cut.outcomes before = full.outcomes before ∧
      (cut.play before).machine.sink.textFrom 0 = (full.play before).machine.sink.textFrom 0 ∧
      (cut.play before).CutOff fuel source reason ∧
      ∀ mid fuel' source' rest, later = mid ++ .unit fuel' source' :: rest →
        (((cut.play before).runWith fuel source).2.play mid).Silent fuel' source'

/-- A sink that takes nothing any more once it has refused a text, or the end of one, only cuts the
output of a session off, wherever in the texts that are written that is. The host functions are pure:
in both sessions they answer alike. -/
theorem play_truncated (refusal : Array String → String → Option Refusal)
    (hcloses : (Sink.mk #[] #[] refusal).Closes) (now : Float) (entries : List Entry) :
    (new ⟨#[], #[], refusal⟩ now).Truncates (new .unlimited now) entries := by
  have hshadows : (new ⟨#[], #[], refusal⟩ now).Shadows (new .unlimited now) :=
    ⟨.mk (m := (new ⟨#[], #[], refusal⟩ now).machine) hcloses rfl fun _ _ => rfl, rfl⟩
  obtain ⟨houtcomes, hplay⟩ | ⟨before, fuel, source, later, rfl, houtcomes, hplay, hcut⟩ :=
    hshadows.play entries
  · refine ⟨⟨"", ?_⟩, .inl ⟨houtcomes, hplay.textFrom_eq⟩⟩
    rw [String.append_empty]
    exact hplay.textFrom_eq.symm
  · obtain ⟨reason, hreason⟩ := hcut.outcome
    refine ⟨?_, .inr ⟨before, fuel, source, later, reason, rfl, houtcomes, hplay.textFrom_eq,
      cutOff_of_failed hreason, ?_⟩⟩
    · rw [play_append, play_append]
      exact hcut.textFrom later
    · rintro mid fuel' source' rest -
      exact silent_of_closed hcut.closed mid fuel' source'

theorem play_truncated_inside :
    let refusal (texts : Array String) (_ : String) : Option Refusal :=
      if texts.size < 3 then none else some ⟨if texts.size = 3 then 2 else 0, "full"⟩
    let entries : List Entry := [.unit 9 "print nil;",
      .unit 9 "fun half() \x7b\x7d print half; print half;", .unit 9 "print half;"]
    let cut := new ⟨#[], #[], refusal⟩ 0
    (Sink.mk #[] #[] refusal).Closes ∧ cut.Truncates (new .unlimited 0) entries ∧
      (cut.outcomes entries).map (fun outcome => outcome.diagnostics) =
        [[], [.output "full"], [.output "full"]] ∧
      (cut.play entries).machine.sink.textFrom 0 = "nil\n<fn ha" := by
  intro refusal entries cut
  have hcloses : (Sink.mk #[] #[] refusal).Closes := by
    intro texts text refused hrefused more text'
    have hfull : ¬ texts.size < 3 := by
      intro h
      change (if _ then _ else _) = _ at hrefused
      rw [if_pos h] at hrefused
      cases hrefused
    have hmore : 3 < (texts.push text ++ more).size := by
      rw [Array.size_append, Array.size_push]
      omega
    refine ⟨"full", ?_⟩
    change (if _ then _ else _) = _
    rw [if_neg (Nat.not_lt_of_lt hmore), if_neg (Nat.ne_of_gt hmore)]
  exact ⟨hcloses, play_truncated refusal hcloses 0 entries, by decide +kernel, by decide +kernel⟩

end Session

end Treewalk

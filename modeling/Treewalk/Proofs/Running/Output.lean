import Treewalk.Proofs.Running.Steps
import Treewalk.Proofs.Scoping.Points

namespace Treewalk

open Run

namespace Sink

variable {sink sink' sink'' : Sink}

theorem textFrom_congr (h : sink'.written = sink.written) : sink'.textFrom 0 = sink.textFrom 0 := by
  change sink'.written.foldl _ _ = sink.written.foldl _ _
  rw [h]

theorem textFrom_push (sink : Sink) (text : String) (offered : Array String)
    (refusal : Array String → String → Option Refusal) :
    (mk offered (sink.written.push text) refusal).textFrom 0 = sink.textFrom 0 ++ text :=
  Array.foldl_push

theorem textFrom_append (h : sink'.written = sink.written ++ more) :
    ∃ rest, sink'.textFrom 0 = sink.textFrom 0 ++ rest := by
  have hfold : more.toList.foldl (fun s t => s ++ t) (sink.textFrom 0 ++ "") =
      sink.textFrom 0 ++ more.toList.foldl (fun s t => s ++ t) "" := List.foldl_assoc
  refine ⟨more.toList.foldl (fun s t => s ++ t) "", ?_⟩
  change sink'.written.foldl _ _ = _
  rw [← hfold, String.append_empty, h, Array.foldl_append, Array.foldl_toList]
  rfl

/-- A sink that takes nothing any more. -/
def Closed (sink : Sink) : Prop :=
  ∀ more text, ∃ reason, sink.refusal (sink.offered ++ more) text = some ⟨0, reason⟩

/-- A sink that takes nothing any more once it has refused a text, or the end of one. -/
def Closes (sink : Sink) : Prop :=
  ∀ texts text refusal, sink.refusal texts text = some refusal →
    ∀ more text', ∃ reason, sink.refusal (texts.push text ++ more) text' = some ⟨0, reason⟩

structure Later (sink sink' : Sink) : Prop where
  offered : ∃ more, sink'.offered = sink.offered ++ more
  written : ∃ more, sink'.written = sink.written ++ more
  refusal : sink'.refusal = sink.refusal

theorem Later.refl (sink : Sink) : sink.Later sink := ⟨⟨#[], by simp⟩, ⟨#[], by simp⟩, rfl⟩

theorem Later.trans (h : sink.Later sink') (h' : sink'.Later sink'') : sink.Later sink'' := by
  obtain ⟨⟨more, ho⟩, ⟨taken, hw⟩, hr⟩ := h
  obtain ⟨⟨more', ho'⟩, ⟨taken', hw'⟩, hr'⟩ := h'
  refine ⟨⟨more ++ more', ?_⟩, ⟨taken ++ taken', ?_⟩, hr'.trans hr⟩
  · rw [ho', ho, Array.append_assoc]
  · rw [hw', hw, Array.append_assoc]

theorem Closed.later (h : sink.Later sink') (hc : sink.Closed) : sink'.Closed := by
  obtain ⟨⟨more, ho⟩, -, hr⟩ := h
  intro more' text
  rw [hr, ho, Array.append_assoc]
  exact hc _ text

theorem Closes.later (h : sink.Later sink') (hc : sink.Closes) : sink'.Closes := by
  unfold Closes
  rw [h.refusal]
  exact hc

end Sink

theorem Refusal.front_append (refusal : Refusal) (text : String) :
    ∃ rest, text = refusal.front text ++ rest := by
  refine ⟨String.ofList (text.toList.drop refusal.taken), ?_⟩
  rw [front, ← String.ofList_append, List.take_append_drop, String.ofList_toList]

theorem Refusal.front_none (reason text : String) : (Refusal.mk 0 reason).front text = "" := rfl

namespace Run

variable {α β : Type} {T : Token → Prop} {writes : Prop} {x : Run α} {m m' : Machine}

theorem later_write (text : String) (m : Machine) : m.sink.Later (after m (write text)).sink := by
  obtain ⟨-, hw⟩ | ⟨-, -, hw⟩ | ⟨-, _, -, hw⟩ := write_cases text m
  · rw [after_of_ok hw]
    exact .refl _
  · rw [after_of_ok hw]
    exact ⟨⟨#[text], Array.push_eq_append⟩, ⟨#[text], Array.push_eq_append⟩, rfl⟩
  · rw [after_of_error hw]
    exact ⟨⟨#[text], Array.push_eq_append⟩, ⟨#[_], Array.push_eq_append⟩, rfl⟩

theorem Composed.later (hx : Composed T writes x) (m : Machine) :
    m.sink.Later (after m x).sink :=
  hx.related (R := fun m m' => m.sink.Later m'.sink) (fun _ => .refl _) (fun _ _ _ => .trans)
    (fun _ _ => .refl _) (fun m text => later_write text m) (fun _ _ _ h => h) m

theorem write_closed (hm : m.sink.Closed) {text : String} (ht : text.isEmpty = false) :
    ∃ reason m', write text m = .error (.fault (.output reason)) m' ∧
      m'.sink.textFrom 0 = m.sink.textFrom 0 := by
  obtain ⟨reason, hc⟩ := hm #[] text
  rw [Array.append_empty] at hc
  obtain ⟨he, -⟩ | ⟨-, hr, -⟩ | ⟨-, refusal, hr, hw⟩ := write_cases text m
  · cases ht.symm.trans he
  · cases hc.symm.trans hr
  · cases hc.symm.trans hr
    refine ⟨reason, _, hw, ?_⟩
    rw [Sink.textFrom_push, Refusal.front_none, String.append_empty]

theorem textFrom_write_closed (hm : m.sink.Closed) (text : String) :
    (after m (write text)).sink.textFrom 0 = m.sink.textFrom 0 := by
  cases ht : text.isEmpty with
  | true =>
    obtain ⟨-, hw⟩ | ⟨he, -⟩ | ⟨he, -⟩ := write_cases text m
    · rw [after_of_ok hw]
    · cases ht.symm.trans he
    · cases ht.symm.trans he
  | false =>
    obtain ⟨_, _, hw, hsame⟩ := write_closed hm ht
    rw [after_of_error hw, hsame]

theorem Composed.closed (hx : Composed T writes x) (m : Machine) (hm : m.sink.Closed) :
    (after m x).sink.textFrom 0 = m.sink.textFrom 0 := by
  have hkept : (after m x).sink.Closed ∧ (after m x).sink.textFrom 0 = m.sink.textFrom 0 := by
    refine hx.related (R := fun m m' => m.sink.Closed →
      m'.sink.Closed ∧ m'.sink.textFrom 0 = m.sink.textFrom 0) (fun _ h => ⟨h, rfl⟩) ?_
      (fun _ _ h => ⟨h, rfl⟩) ?_ (fun _ _ _ h => h) m hm
    · intro m m₁ m₂ h₁ h₂ hm
      obtain ⟨hc₁, hw₁⟩ := h₁ hm
      obtain ⟨hc₂, hw₂⟩ := h₂ hc₁
      exact ⟨hc₂, hw₂.trans hw₁⟩
    · intro m text hm
      exact ⟨hm.later (later_write text m), textFrom_write_closed hm text⟩
  exact hkept.2

theorem writeAll_closed (texts : List String) (h : ∃ text ∈ texts, text.isEmpty = false) :
    ∀ {m : Machine}, m.sink.Closed →
      ∃ reason m', writeAll texts m = .error (.fault (.output reason)) m' := by
  induction texts with
  | nil =>
    obtain ⟨_, h, -⟩ := h
    cases h
  | cons text texts ih =>
    intro m hm
    cases ht : text.isEmpty with
    | true =>
      have hw : write text m = .ok () m := by
        simp [write, Sink.offer, ht]
      obtain ⟨text', hmem, ht'⟩ := h
      obtain rfl | hmem := List.mem_cons.mp hmem
      · cases ht.symm.trans ht'
      obtain ⟨reason, m', hrest⟩ := ih ⟨text', hmem, ht'⟩ hm
      exact ⟨reason, m', (bind_of_ok hw).trans hrest⟩
    | false =>
      obtain ⟨reason, m', hw, -⟩ := write_closed hm ht
      exact ⟨reason, m', bind_of_error hw⟩

theorem print_closed (hm : m.sink.Closed) (v : Value) :
    ∃ reason m', print v m = .error (.fault (.output reason)) m' :=
  writeAll_closed (m.heap.line v) ⟨"\n", by simp [Heap.line], rfl⟩ hm

/-- The same machine but for its sink, which closes if it refuses, beside one that has taken the same
so far and will take anything. -/
inductive Unlimited (m : Machine) : Machine → Prop
  | mk {sink : Sink} (closes : m.sink.Closes) (written : sink.written = m.sink.written)
      (takes : ∀ texts text, sink.refusal texts text = none) : Unlimited m { m with sink }

/-- A run on a machine and on one with an unlimited sink: it goes the same way on both, or it is cut
off where the sink has closed, and on the other machine writes on from there. -/
inductive Follows (x : Run α) (m u : Machine) : Prop
  | ok {a : α} {m' u' : Machine} : x m = .ok a m' → x u = .ok a u' → Unlimited m' u' → Follows x m u
  | error {e : Halt} {m' u' : Machine} : x m = .error e m' → x u = .error e u' → Unlimited m' u' →
      Follows x m u
  | cut {reason : String} {m' : Machine} {more : String} :
      x m = .error (.fault (.output reason)) m' → m'.sink.Closed →
      (after u x).sink.textFrom 0 = m'.sink.textFrom 0 ++ more → Follows x m u

variable {u : Machine}

theorem Unlimited.written (h : Unlimited m u) : u.sink.written = m.sink.written := by
  obtain ⟨-, hw, -⟩ := h
  exact hw

theorem Unlimited.takes (h : Unlimited m u) (texts : Array String) (text : String) :
    u.sink.refusal texts text = none := by
  obtain ⟨-, -, ht⟩ := h
  exact ht texts text

theorem Unlimited.closes (h : Unlimited m u) : m.sink.Closes := by
  obtain ⟨hc, -, -⟩ := h
  exact hc

theorem Unlimited.current (h : Unlimited m u) : u.current = m.current := by
  cases h
  rfl

theorem Unlimited.push (h : Unlimited m u) (text : String) :
    Unlimited
      { m with sink := { m.sink with
        offered := m.sink.offered.push text, written := m.sink.written.push text } }
      { u with sink := { u.sink with
        offered := u.sink.offered.push text, written := u.sink.written.push text } } := by
  obtain ⟨hc, hw, ht⟩ := h
  exact .mk (m := { m with sink := { m.sink with
    offered := m.sink.offered.push text, written := m.sink.written.push text } })
    hc (congrArg (Array.push · text) hw) ht

theorem Unlimited.at (h : Unlimited m u) (scope : ScopeId) :
    Unlimited { m with current := scope } { u with current := scope } := by
  obtain ⟨hc, hw, ht⟩ := h
  exact .mk (m := { m with current := scope }) hc hw ht

theorem follows_write (text : String) (h : Unlimited m u) : Follows (write text) m u := by
  -- the other sink refuses nothing, and both look at the same text
  obtain ⟨ht, hm⟩ | ⟨ht, -, hm⟩ | ⟨ht, refusal, hr, hm⟩ := write_cases text m <;>
    obtain ⟨ht', hu⟩ | ⟨ht', -, hu⟩ | ⟨-, _, hr', -⟩ := write_cases text u
  · exact .ok hm hu h
  · cases ht.symm.trans ht'
  · cases hr'.symm.trans (h.takes _ _)
  · cases ht'.symm.trans ht
  · exact .ok hm hu (h.push text)
  · cases hr'.symm.trans (h.takes _ _)
  · cases ht'.symm.trans ht
  · obtain ⟨rest, htext⟩ := refusal.front_append text
    have hfront : (after m (write text)).sink.textFrom 0 =
        m.sink.textFrom 0 ++ refusal.front text := by
      rw [after_of_error hm, Sink.textFrom_push]
    have hmore : (after u (write text)).sink.textFrom 0 =
        (after m (write text)).sink.textFrom 0 ++ rest := by
      rw [hfront, String.append_assoc, ← htext, after_of_ok hu, Sink.textFrom_push,
        Sink.textFrom_congr h.written]
    rw [after_of_error hm] at hmore
    exact .cut hm (h.closes _ _ _ hr) hmore
  · cases hr'.symm.trans (h.takes _ _)

theorem Follows.look {f : Machine → Run α} (hu : f u = f m) (h : Follows (f m) m u) :
    Follows (fun m => f m m) m u := by
  cases h with
  | ok hm hx h₁ => exact .ok hm (by rw [hu]; exact hx) h₁
  | error hm hx h₁ => exact .error hm (by rw [hu]; exact hx) h₁
  | cut hm hc hmore =>
    have hafter : after u (fun m => f m m) = after u (f m) := by simp only [after, hu]
    exact .cut hm hc (hafter ▸ hmore)

theorem textFrom_after_bind {f : α → Run β} (hf : ∀ a, Composed T writes (f a)) (u : Machine) :
    ∃ more, (after u (x >>= f)).sink.textFrom 0 = (after u x).sink.textFrom 0 ++ more := by
  rw [after_bind]
  cases hu : x u with
  | ok a u₁ =>
    rw [after_of_ok hu]
    obtain ⟨more, hmore⟩ := ((hf a).later u₁).written
    exact Sink.textFrom_append hmore
  | error e u₁ =>
    rw [after_of_error hu]
    exact ⟨"", String.append_empty.symm⟩

theorem Follows.bind {f : α → Run β} (hf : ∀ a, Composed T writes (f a)) (h : Follows x m u)
    (hnext : ∀ a {m₁ u₁}, Unlimited m₁ u₁ → Follows (f a) m₁ u₁) : Follows (x >>= f) m u := by
  cases h with
  | @ok a m₁ u₁ hm hu h₁ =>
    have hafter : after u (x >>= f) = after u₁ (f a) := by rw [after_bind, hu]
    cases hnext a h₁ with
    | ok hm₁ hu₁ h₂ => exact .ok ((bind_of_ok hm).trans hm₁) ((bind_of_ok hu).trans hu₁) h₂
    | error hm₁ hu₁ h₂ => exact .error ((bind_of_ok hm).trans hm₁) ((bind_of_ok hu).trans hu₁) h₂
    | cut hm₁ hc hmore => exact .cut ((bind_of_ok hm).trans hm₁) hc (hafter ▸ hmore)
  | error hm hu h₁ => exact .error (bind_of_error hm) (bind_of_error hu) h₁
  | cut hm hc hmore =>
    -- on the other machine the rest runs too
    obtain ⟨more', hrest⟩ := textFrom_after_bind (x := x) hf u
    rw [hmore, String.append_assoc] at hrest
    exact .cut (bind_of_error hm) hc hrest

theorem Follows.within {scope : ScopeId} (h : Unlimited m u)
    (hx : Follows x { m with current := scope } { u with current := scope }) :
    Follows (Run.within scope x) m u := by
  have back {m₁ u₁ : Machine} (h₁ : Unlimited m₁ u₁) :
      Unlimited { m₁ with current := m.current } { u₁ with current := u.current } := by
    rw [h.current]
    exact h₁.at m.current
  cases hx with
  | ok hm hu h₁ => exact .ok (within_of_ok hm) (within_of_ok hu) (back h₁)
  | error hm hu h₁ => exact .error (within_of_error hm) (within_of_error hu) (back h₁)
  | cut hm hc hmore =>
    have hafter : (after u (Run.within scope x)).sink =
        (after { u with current := scope } x).sink := by rw [after_within]
    exact .cut (within_of_error hm) hc (hafter ▸ hmore)

theorem Composed.follows (hx : Composed T writes x) (h : Unlimited m u) : Follows x m u := by
  induction hx generalizing m u with
  | pure a => exact .ok rfl rfl h
  | exhausted | fail => exact .error rfl rfl h
  | write _ text => exact follows_write text h
  | change f =>
    obtain ⟨hc, hw, ht⟩ := h
    exact .ok rfl rfl (.mk (m := { m with heap := (f m.heap).2 }) hc hw ht)
  | look f hf _ ih =>
    have hu : f u = f m := by
      obtain ⟨-, -⟩ := h
      exact hf m _
    exact .look hu (ih m h)
  | bind _ hf ihx ihf => exact .bind hf (ihx h) fun a _ _ h₁ => ihf a h₁
  | @within _ scope x _ ih => exact .within h (ih (h.at scope))

end Run

theorem Calls.closed {p q : Point} (h : Calls p q) (hp : p.machine.sink.Closed) :
    q.machine.sink.Closed := by
  have run {α : Type} {x : Run α} {m m₁ : Machine} {a : α} (hx : Evaluates x) (hm : m.sink.Closed)
      (h : x m = .ok a m₁) : m₁.sink.Closed := by
    rw [← after_of_ok h]
    exact hm.later (hx.later m)
  cases h with
  | binaryRight h | logicalRight h | arguments h | setValue h | tail h | ifThenBranch h
  | ifElseThen h | ifElseElse h | round h => exact run (evaluates_evaluate _ _) hp h
  | rest h => exact run (evaluates_execute _ _) hp h
  | apply h h₁ =>
    exact run (evaluates_evaluateAll _ _) (run (evaluates_evaluate _ _) hp h) h₁
  | again h _ h₁ => exact run (evaluates_execute _ _) (run (evaluates_evaluate _ _) hp h) h₁
  | initializer _ _ h =>
    exact run (Composed.bind (.newObject _) fun _ => .bindMethod _ _) hp h
  | _ => exact hp

theorem print_fails {n : Nat} {e : Expr} {m : Machine} (hm : m.sink.Closed) (c : Completion)
    (m' : Machine) : execute n (.print e) m ≠ .ok c m' := by
  intro h
  cases n with
  | zero => cases h
  | succ n =>
    rw [execute] at h
    cases he : evaluate n e m with
    | error halt m₁ =>
      rw [bind_of_error he] at h
      cases h
    | ok v m₁ =>
      have hclosed : m₁.sink.Closed := by
        rw [← after_of_ok he]
        exact hm.later ((evaluates_evaluate n e).later m)
      obtain ⟨reason, m₂, hprint⟩ := print_closed hclosed v
      rw [bind_of_ok he, bind_of_error hprint] at h
      cases h

end Treewalk

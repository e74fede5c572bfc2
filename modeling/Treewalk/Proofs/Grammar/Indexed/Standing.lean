import Treewalk.Grammar.Parser
import Treewalk.Proofs.Grammar.Meeting

/-!
The index into the list and the cursor on the tokens ahead. A parser with an index mirrors one on a
cursor when it does the same wherever both stand at the same token, if its calls may be nested deep
enough, and so it stays in the list.
-/

namespace Treewalk

namespace Parser

/-- A list of tokens, taken apart at its first end. -/
structure Layout where
  code : List Token
  eof : Token
  beyond : List Token
  code_ne : ∀ t ∈ code, t.kind ≠ .eof
  eof_kind : eof.kind = .eof

def Layout.tokens (l : Layout) : Array Token := (l.code ++ l.eof :: l.beyond).toArray

/-- The index stands at the token ahead of the cursor. -/
structure Stands (l : Layout) (c : Cursor) (p : Parser) : Prop where
  tokens : p.tokens = l.tokens
  eof : c.eof = l.eof
  rest : c.rest = l.code.drop p.current
  current_le : p.current ≤ l.code.length
  nextId : p.nextId = c.nextId
  faults : p.faults = c.faults

variable {l : Layout} {c d : Cursor} {p : Parser} {α β : Type}

namespace Stands

theorem length_rest (h : Stands l c p) : c.rest.length = l.code.length - p.current := by
  rw [h.rest, List.length_drop]

theorem eof_kind (h : Stands l c p) : c.eof.kind = .eof := h.eof ▸ l.eof_kind

theorem tokens_current (h : Stands l c p) : p.tokens[p.current]? = some c.current := by
  have hlist : p.tokens[p.current]? = (c.rest ++ l.eof :: l.beyond)[0]? := by
    rw [h.tokens, h.rest, Layout.tokens, List.getElem?_toArray,
      ← List.drop_append_of_le_length h.current_le, List.getElem?_drop, Nat.add_zero]
  rw [hlist, Cursor.current, h.eof]
  cases c.rest <;> rfl

theorem kind_current (h : Stands l c p) : c.current.kind = .eof ↔ c.rest = [] := by
  rw [Cursor.current]
  cases hr : c.rest with
  | nil => simp [h.eof_kind]
  | cons t ts =>
    have ht : t ∈ l.code := List.mem_of_mem_drop (h.rest ▸ hr ▸ List.mem_cons_self)
    simpa using l.code_ne t ht

theorem keep (h : Stands l c p) (d : Diagnostic) :
    Stands l (c.report d) { p with faults := p.faults ++ [d] } :=
  { h with faults := by rw [h.faults]; rfl }

theorem next (h : Stands l c p) (hr : c.rest = t :: ts) :
    Stands l { c with rest := ts } { p with current := p.current + 1 } := by
  have hlen := h.length_rest
  rw [hr, List.length_cons] at hlen
  refine ⟨h.tokens, h.eof, ?_, by dsimp only; omega, h.nextId, h.faults⟩
  rw [← List.tail_drop, ← h.rest, hr]
  rfl

end Stands

/-- From some depth on the result is `b`. -/
def Returns (o : Nat → Option β) (b : β) : Prop := ∃ least, ∀ depth ≥ least, o depth = some b

theorem Returns.of_eq {o : Option β} {b : β} (h : o = some b) : Returns (fun _ => o) b :=
  ⟨0, fun _ _ => h⟩

theorem Returns.rule {rule : Rule α} (h : Returns (fun depth => step (run depth) rule p) r) :
    Returns (fun depth => run depth rule p) r := by
  obtain ⟨least, h⟩ := h
  refine ⟨least + 1, fun depth hd => ?_⟩
  obtain ⟨depth, rfl⟩ : ∃ d, depth = d + 1 := ⟨depth - 1, by omega⟩
  exact h depth (by omega)

theorem Returns.mono {γ : Type} {o : Nat → Option β} {o' : Nat → Option γ} {b : β} {g : γ}
    (h : Returns o b) (hstep : ∀ depth, o depth = some b → o' depth = some g) : Returns o' g := by
  obtain ⟨least, h⟩ := h
  exact ⟨least, fun depth hd => hstep depth (h depth hd)⟩

theorem Returns.trans {γ : Type} {o : Nat → Option β} {o' : Nat → Option γ} {b : β} {g : γ}
    (h : Returns o b) (h' : Returns o' g)
    (hstep : ∀ depth, o depth = some b → o' depth = some g → o'' depth = some r) :
    Returns o'' r := by
  obtain ⟨least, h⟩ := h
  obtain ⟨least', h'⟩ := h'
  exact ⟨max least least', fun depth hd =>
    hstep depth (h depth (by omega)) (h' depth (by omega))⟩

theorem bind_run_ok {w : Run α} (f : α → Run β) (h : w p = some (.ok a, p')) :
    (w >>= f) p = f a p' := by
  change (w p).bind _ = _
  rw [h]
  rfl

theorem bind_run_error {w : Run α} (f : α → Run β) (h : w p = some (.error e, p')) :
    (w >>= f) p = some (.error e, p') := by
  change (w p).bind _ = _
  rw [h]
  rfl

theorem Returns.bind {w : Nat → Run α} {f : Nat → α → Run β}
    (h : Returns (fun depth => w depth p) (.ok a, p'))
    (h' : Returns (fun depth => f depth a p') r) :
    Returns (fun depth => (w depth >>= f depth) p) r :=
  h.trans h' fun _ hw hf => (bind_run_ok _ hw).trans hf

theorem Returns.bind_error {w : Nat → Run α} (f : Nat → α → Run β)
    (h : Returns (fun depth => w depth p) (.error e, p')) :
    Returns (fun depth => (w depth >>= f depth) p) (.error e, p') :=
  h.mono fun _ hw => bind_run_error _ hw

theorem Returns.attempt {w : Nat → Run α} (h : Returns (fun depth => w depth p) (r, p')) :
    Returns (fun depth => Parser.attempt (w depth) p) (.ok r, p') := by
  refine h.mono fun depth hw => ?_
  rw [Parser.attempt, hw]
  rfl

def Beside (l : Layout) (o : Nat → Option (Except Diagnostic α × Parser)) :
    EStateM.Result Halt Cursor α → Prop
  | .ok a d => ∃ p, Returns o (.ok a, p) ∧ Stands l d p
  | .error (.fault e) d => ∃ p, Returns o (.error e, p) ∧ Stands l d p
  | .error .exhausted _ => True

def MirrorsAt (l : Layout) (w : Nat → Run α) (q : Parse α) (c : Cursor) (p : Parser) : Prop :=
  Beside l (fun depth => w depth p) (q c)

def Mirrors (l : Layout) (w : Nat → Run α) (q : Parse α) : Prop :=
  ∀ c p, Stands l c p → MirrorsAt l w q c p

theorem MirrorsAt.bind {w : Nat → Run α} {q : Parse α} {f : Nat → α → Run β} {g : α → Parse β}
    (hw : MirrorsAt l w q c p) (hf : ∀ a, Mirrors l (fun depth => f depth a) (g a)) :
    MirrorsAt l (fun depth => w depth >>= f depth) (q >>= g) c p := by
  unfold MirrorsAt at hw ⊢
  cases hq : q c with
  | ok a d =>
    rw [hq] at hw
    obtain ⟨p', hw, hs⟩ := hw
    rw [Parse.bind_ok g hq]
    have hfa := hf a d p' hs
    unfold MirrorsAt at hfa
    match hg : g a d, hfa with
    | .ok b e, ⟨p'', hrun, hs'⟩ => exact ⟨p'', hw.bind hrun, hs'⟩
    | .error (.fault _) e, ⟨p'', hrun, hs'⟩ => exact ⟨p'', hw.bind hrun, hs'⟩
    | .error .exhausted e, _ => trivial
  | error e d =>
    rw [hq] at hw
    rw [Parse.bind_error g hq]
    cases e with
    | fault e =>
      obtain ⟨p', hw, hs⟩ := hw
      exact ⟨p', hw.bind_error f, hs⟩
    | exhausted => trivial

theorem Mirrors.bind {w : Nat → Run α} {q : Parse α} {f : Nat → α → Run β} {g : α → Parse β}
    (hw : Mirrors l w q) (hf : ∀ a, Mirrors l (fun depth => f depth a) (g a)) :
    Mirrors l (fun depth => w depth >>= f depth) (q >>= g) :=
  fun c p h => (hw c p h).bind hf

theorem mirrorsAt_ok {w : Run α} {q : Parse α} (hw : w p = some (.ok a, p')) (hs : Stands l d p')
    (hq : q c = .ok a d) : MirrorsAt l (fun _ => w) q c p := by
  unfold MirrorsAt
  rw [hq]
  exact ⟨p', .of_eq hw, hs⟩

theorem mirrors_pure (a : α) : Mirrors l (fun _ => pure a) (pure a) :=
  fun _ _ h => mirrorsAt_ok rfl h rfl

theorem Mirrors.map {w : Nat → Run α} {q : Parse α} (g : α → β) (hw : Mirrors l w q) :
    Mirrors l (fun depth => g <$> w depth) (g <$> q) := by
  have hw' : (fun depth => g <$> w depth) = fun depth => w depth >>= fun a => pure (g a) := rfl
  have hq' : g <$> q = q >>= fun a => pure (g a) := rfl
  rw [hw', hq']
  exact hw.bind fun a => mirrors_pure (g a)

theorem mirrors_exhausted {w : Nat → Run α} : Mirrors l w Parse.exhausted := fun _ _ _ => trivial

theorem MirrorsAt.rule {rule : Rule α} {q : Parse α}
    (h : MirrorsAt l (fun depth => step (run depth) rule) q c p) :
    MirrorsAt l (fun depth => run depth rule) q c p := by
  unfold MirrorsAt at h ⊢
  match hq : q c, h with
  | .ok a d, ⟨p', hrun, hs⟩ => exact ⟨p', hrun.rule, hs⟩
  | .error (.fault _) d, ⟨p', hrun, hs⟩ => exact ⟨p', hrun.rule, hs⟩
  | .error .exhausted d, _ => trivial

theorem Mirrors.rule {rule : Rule α} {q : Parse α}
    (h : Mirrors l (fun depth => step (run depth) rule) q) :
    Mirrors l (fun depth => run depth rule) q :=
  fun c p hs => (h c p hs).rule

theorem current_cons (hr : c.rest = t :: ts) : c.current = t := by
  rw [Cursor.current, hr]
  rfl

theorem tokenAt_eq (h : p.tokens[i]? = some t) : tokenAt i p = some (.ok t, p) := by
  rw [tokenAt, h]
  rfl

theorem peek_eq (h : Stands l c p) : peek p = some (.ok c.current, p) := tokenAt_eq h.tokens_current

theorem atEnd_eq (h : Stands l c p) : atEnd p = some (.ok c.rest.isEmpty, p) := by
  rw [atEnd, bind_run_ok _ (peek_eq h)]
  have hkind : decide (c.current.kind = .eof) = c.rest.isEmpty := by
    rw [Bool.eq_iff_iff, decide_eq_true_iff, h.kind_current, List.isEmpty_iff]
  rw [hkind]
  rfl

theorem check_eq (h : Stands l c p) (kind : TokenKind) :
    check kind p = some (.ok (c.rest.head?.any (·.kind = kind)), p) := by
  rw [check, bind_run_ok _ (atEnd_eq h)]
  cases hr : c.rest with
  | nil => rfl
  | cons t ts =>
    change (peek >>= fun t => pure (decide (t.kind = kind))) p = _
    rw [bind_run_ok _ (peek_eq h), Cursor.current, hr]
    rfl

theorem advance_eq (h : Stands l c p) (hr : c.rest = t :: ts) :
    advance p = some (.ok t, { p with current := p.current + 1 }) := by
  rw [advance, bind_run_ok _ (atEnd_eq h), hr]
  have ht := h.tokens_current
  rw [Cursor.current, hr] at ht
  exact tokenAt_eq ht

theorem advance_eq_of_nil (h : Stands l c p) (hr : c.rest = []) :
    ∃ t, advance p = some (.ok t, p) := by
  have hbefore : p.current - 1 < p.tokens.size := by
    have hle := h.current_le
    rw [h.tokens, Layout.tokens, List.size_toArray, List.length_append, List.length_cons]
    omega
  refine ⟨p.tokens[p.current - 1], ?_⟩
  rw [advance, bind_run_ok _ (atEnd_eq h), hr]
  exact tokenAt_eq (Array.getElem?_eq_getElem hbefore)

theorem mirrors_peek : Mirrors l (fun _ => peek) Parse.peek :=
  fun _ _ h => mirrorsAt_ok (peek_eq h) h rfl

theorem mirrors_atEnd : Mirrors l (fun _ => atEnd) Parse.atEnd :=
  fun _ _ h => mirrorsAt_ok (atEnd_eq h) h rfl

theorem mirrors_check (kind : TokenKind) : Mirrors l (fun _ => check kind) (Parse.check kind) :=
  fun _ _ h => mirrorsAt_ok (check_eq h kind) h rfl

theorem mirrors_failHere (fault : SyntaxFault) :
    Mirrors l (fun _ => failHere (α := α) fault) (Parse.failHere fault) := by
  intro c p h
  refine ⟨p, .of_eq ?_, h⟩
  rw [failHere, bind_run_ok _ (peek_eq h)]
  rfl

theorem mirrors_report (fault : SyntaxFault) (t : Token) :
    Mirrors l (fun _ => report fault t) (Parse.report fault t) :=
  fun _ _ h => mirrorsAt_ok rfl (h.keep _) rfl

theorem mirrors_number (t : Token) : Mirrors l (fun _ => number t) (Parse.number t) := by
  intro c p h
  refine ⟨{ p with nextId := p.nextId + 1 }, .of_eq ?_, { h with nextId := by simp [h.nextId] }⟩
  rw [← h.nextId]
  rfl

theorem mirrorsAt_advance (h : Stands l c p) (hr : c.rest ≠ []) :
    MirrorsAt l (fun _ => advance) Parse.take c p := by
  obtain ⟨t, ts, hr⟩ := List.exists_cons_of_ne_nil hr
  refine mirrorsAt_ok (advance_eq h hr) (h.next hr) ?_
  rw [Parse.take, current_cons hr, hr]
  rfl

theorem accept_nil (h : Stands l c p) (hr : c.rest = []) (kinds : List TokenKind) :
    accept kinds p = some (.ok none, p) := by
  induction kinds with
  | nil => rfl
  | cons kind kinds ih =>
    rw [accept, bind_run_ok _ (check_eq h kind), hr]
    exact ih

theorem accept_cons (h : Stands l c p) (hr : c.rest = t :: ts) (kinds : List TokenKind) :
    accept kinds p =
      if t.kind ∈ kinds then some (.ok (some t), { p with current := p.current + 1 })
      else some (.ok none, p) := by
  induction kinds with
  | nil => rfl
  | cons kind kinds ih =>
    rw [accept, bind_run_ok _ (check_eq h kind), hr]
    by_cases hk : t.kind = kind
    · have hcheck : (t :: ts).head?.any (·.kind = kind) = true := by simp [hk]
      rw [hcheck, if_pos rfl, bind_run_ok _ (advance_eq h hr), hk, if_pos List.mem_cons_self]
      rfl
    · have hcheck : (t :: ts).head?.any (·.kind = kind) = false := by simp [hk]
      rw [hcheck, if_neg Bool.false_ne_true, ih]
      simp [hk]

theorem mirrors_accept (kinds : List TokenKind) :
    Mirrors l (fun _ => accept kinds) (Parse.acceptIf (· ∈ kinds)) := by
  intro c p h
  cases hr : c.rest with
  | nil => exact mirrorsAt_ok (accept_nil h hr kinds) h (by rw [Parse.acceptIf, hr])
  | cons t ts =>
    have haccept := accept_cons h hr kinds
    by_cases hk : t.kind ∈ kinds
    · rw [if_pos hk] at haccept
      exact mirrorsAt_ok haccept (h.next hr) (by simp [Parse.acceptIf, hr, hk])
    · rw [if_neg hk] at haccept
      exact mirrorsAt_ok haccept h (by simp [Parse.acceptIf, hr, hk])

theorem mirrors_accept_one (kind : TokenKind) :
    Mirrors l (fun _ => accept [kind]) (Parse.accept kind) := by
  have h := mirrors_accept (l := l) [kind]
  simp only [List.mem_singleton] at h
  exact h

theorem Mirrors.choice {kinds : List TokenKind} {f : Nat → Option Token → Run α}
    {g : Option Token → Parse α} (hs : ∀ t, Mirrors l (fun depth => f depth (some t)) (g (some t)))
    (hn : Mirrors l (fun depth => f depth none) (g none)) :
    Mirrors l (fun depth => accept kinds >>= f depth) (Parse.acceptIf (· ∈ kinds) >>= g) :=
  (mirrors_accept kinds).bind fun
    | some t => hs t
    | none => hn

theorem Mirrors.choice_one {kind : TokenKind} {f : Nat → Option Token → Run α}
    {g : Option Token → Parse α} (hs : ∀ t, Mirrors l (fun depth => f depth (some t)) (g (some t)))
    (hn : Mirrors l (fun depth => f depth none) (g none)) :
    Mirrors l (fun depth => accept [kind] >>= f depth) (Parse.accept kind >>= g) :=
  (mirrors_accept_one kind).bind fun
    | some t => hs t
    | none => hn

theorem Mirrors.test {w : Nat → Run Bool} {q : Parse Bool} {f : Nat → Bool → Run α}
    {g : Bool → Parse α} (hw : Mirrors l w q)
    (ht : Mirrors l (fun depth => f depth true) (g true))
    (hf : Mirrors l (fun depth => f depth false) (g false)) :
    Mirrors l (fun depth => w depth >>= f depth) (q >>= g) :=
  hw.bind fun
    | true => ht
    | false => hf

theorem mirrors_expect (kind : TokenKind) (fault : SyntaxFault) :
    Mirrors l (fun _ => expect kind fault) (Parse.expect kind fault) :=
  .choice_one mirrors_pure (mirrors_failHere fault)

theorem step_resume_nil (call : ∀ {β : Type}, Rule β → Run β) (h : Stands l c p)
    (hr : c.rest = []) : step call .resume p = some (.ok (), p) := by
  rw [step, bind_run_ok _ (atEnd_eq h), hr]
  rfl

theorem step_resume_cons (call : ∀ {β : Type}, Rule β → Run β) (h : Stands l c p)
    (hr : c.rest = t :: ts) (hlast : p.tokens[p.current - 1]? = some last) :
    step call .resume p =
      if last.kind = .punct .semicolon || Cursor.opensStatement t.kind then some (.ok (), p)
      else call .resume { p with current := p.current + 1 } := by
  have hpeek : peek p = some (.ok t, p) := current_cons hr ▸ peek_eq h
  have hprevious : previous p = some (.ok last, p) := tokenAt_eq hlast
  rw [step, bind_run_ok _ (atEnd_eq h), hr]
  change (previous >>= _) p = _
  rw [bind_run_ok _ hprevious]
  by_cases hsemi : last.kind = .punct .semicolon
  · rw [if_pos hsemi, if_pos (by simp [hsemi])]
    rfl
  rw [if_neg hsemi, bind_run_ok _ hpeek]
  by_cases hopens : Cursor.opensStatement t.kind
  · rw [if_pos hopens, if_pos (by simp [hopens])]
    rfl
  · rw [if_neg hopens, if_neg (by simp [hsemi, hopens]), bind_run_ok _ (advance_eq h hr)]

theorem resume_returns (h : Stands l c p) (hlast : p.tokens[p.current - 1]? = some last) :
    ∃ p', Returns (fun depth => run depth .resume p) (.ok (), p') ∧
      Stands l { c with rest := Cursor.resume last c.rest } p' := by
  induction hr : c.rest generalizing c p last with
  | nil =>
    refine ⟨p, .rule ⟨0, fun depth _ => step_resume_nil _ h hr⟩, ?_⟩
    rw [Cursor.resume, ← hr]
    exact h
  | cons t ts ih =>
    have hstep (depth : Nat) := step_resume_cons (run depth) h hr hlast
    rw [Cursor.resume]
    split
    · next hstop =>
      simp only [if_pos hstop] at hstep
      refine ⟨p, .rule ⟨0, fun depth _ => hstep depth⟩, ?_⟩
      rw [← hr]
      exact h
    · next hgo =>
      simp only [if_neg hgo] at hstep
      have ht : p.tokens[p.current]? = some t := current_cons hr ▸ h.tokens_current
      obtain ⟨p', ⟨least, hrun⟩, hs⟩ := ih (c := { c with rest := ts }) (h.next hr) ht rfl
      exact ⟨p', .rule ⟨least, fun depth hd => (hstep depth).trans (hrun depth hd)⟩, hs⟩

theorem synchronize_returns (h : Stands l c p) :
    ∃ p', Returns (fun depth => run depth .synchronize p) (.ok (), p') ∧
      Stands l c.synchronize p' := by
  unfold Cursor.synchronize
  split
  · next hr =>
    obtain ⟨t, hadvance⟩ := advance_eq_of_nil h hr
    have hresume : Returns (fun depth => run depth .resume p) (.ok (), p) :=
      .rule ⟨0, fun depth _ => step_resume_nil _ h hr⟩
    exact ⟨p, .rule (.bind (.of_eq hadvance) hresume), h⟩
  · next t ts hr =>
    have ht : p.tokens[p.current]? = some t := current_cons hr ▸ h.tokens_current
    obtain ⟨p', hrun, hs⟩ := resume_returns (h.next hr) ht
    exact ⟨p', .rule (.bind (.of_eq (advance_eq h hr)) hrun), hs⟩

end Parser

end Treewalk

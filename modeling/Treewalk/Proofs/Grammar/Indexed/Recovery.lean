import Mathlib.Order.Bounds.Defs
import Treewalk.Proofs.Grammar.Indexed.Range

namespace Treewalk

namespace Parser

variable {α β : Type} {l : Layout} {c : Cursor} {p p' p'' q : Parser} {tokens ts : Array Token}

def RaisedAt (p : Parser) (d : Diagnostic) : Prop :=
  ∃ t ∈ p.tokens[p.current]?, ∃ fault, d = .syntactic fault t

/-- The faults that were kept stay, and one that unwinds is raised where the parser then stands. -/
def Blames (w : Run α) : Prop :=
  ∀ p r p', w p = some (r, p') → p.faults <+: p'.faults ∧ ∀ d, r = .error d → RaisedAt p' d

theorem Blames.bind {w : Run α} {f : α → Run β} (hw : Blames w) (hf : ∀ a, Blames (f a)) :
    Blames (w >>= f) := by
  intro p r p'' hrun
  obtain ⟨e, hw', rfl⟩ | ⟨a, p', hw', hrest⟩ := bind_run_cases hrun
  · obtain ⟨hkept, hraised⟩ := hw p _ p'' hw'
    exact ⟨hkept, fun d hd => hraised d (by cases hd; rfl)⟩
  · obtain ⟨hkept, hraised⟩ := hf a p' r p'' hrest
    exact ⟨(hw p _ p' hw').1.trans hkept, hraised⟩

theorem blames_of_ok {w : Run α}
    (h : ∀ p r p', w p = some (r, p') → (∃ a, r = .ok a) ∧ p.faults <+: p'.faults) : Blames w := by
  intro p r p' hrun
  obtain ⟨⟨a, rfl⟩, hkept⟩ := h p r p' hrun
  exact ⟨hkept, fun d hd => by cases hd⟩

theorem blames_pure (a : α) : Blames (pure a) :=
  blames_of_ok fun _ _ _ h => by cases h; exact ⟨⟨a, rfl⟩, List.prefix_refl _⟩

theorem blames_get : Blames (get : Run Parser) :=
  blames_of_ok fun _ _ _ h => by cases h; exact ⟨⟨_, rfl⟩, List.prefix_refl _⟩

theorem blames_tokenAt (i : Nat) : Blames (tokenAt i) := by
  refine blames_of_ok fun p r p' h => ?_
  obtain ⟨t, -, rfl, rfl⟩ := tokenAt_run_cases h
  exact ⟨⟨t, rfl⟩, List.prefix_refl _⟩

theorem blames_peek : Blames peek := blames_get.bind fun _ => blames_tokenAt _

theorem blames_previous : Blames previous := blames_get.bind fun _ => blames_tokenAt _

theorem blames_advance : Blames advance := by
  have hend : Blames atEnd := blames_peek.bind fun _ => blames_pure _
  have hstep : Blames (modify fun p => { p with current := p.current + 1 } : Run PUnit) :=
    blames_of_ok fun _ _ _ h => by cases h; exact ⟨⟨_, rfl⟩, List.prefix_refl _⟩
  exact hend.bind fun _ => Compositional.ite blames_previous (hstep.bind fun _ => blames_previous)

theorem blames_failHere (fault : SyntaxFault) : Blames (failHere fault : Run α) := by
  intro p r p' hrun
  obtain ⟨e, hpeek, -⟩ | ⟨t, q, hpeek, hthrow⟩ := bind_run_cases hrun
  · obtain ⟨t, -, ⟨⟩, -⟩ := tokenAt_run_cases hpeek
  · obtain ⟨t, ht, ⟨⟩, rfl⟩ := tokenAt_run_cases hpeek
    cases hthrow
    refine ⟨List.prefix_refl _, ?_⟩
    rintro d ⟨⟩
    exact ⟨_, ht, fault, rfl⟩

theorem compositional_blames : Compositional fun _ w => Blames w where
  never := fun _ _ _ h => nomatch h
  pure := blames_pure
  bind := .bind
  attempt := fun hw => blames_of_ok fun p r p' h => by
    obtain ⟨r', hw', rfl⟩ := attempt_run_cases h
    exact ⟨⟨r', rfl⟩, (hw p r' p' hw').1⟩
  peek := blames_peek
  previous := blames_previous
  advance := blames_advance
  failHere := blames_failHere
  keep := fun d => blames_of_ok fun _ _ _ h => by cases h; exact ⟨⟨_, rfl⟩, List.prefix_append _ _⟩
  number := fun _ => blames_of_ok fun _ _ _ h => by cases h; exact ⟨⟨_, rfl⟩, List.prefix_refl _⟩

def on (p : Parser) (tokens : Array Token) : Parser := { p with tokens }

def SameUpTo (i : Nat) (tokens ts : Array Token) : Prop := ∀ j ≤ i, ts[j]? = tokens[j]?

theorem SameUpTo.mono (h : SameUpTo i tokens ts) (hij : j ≤ i) : SameUpTo j tokens ts :=
  fun k hk => h k (Nat.le_trans hk hij)

/-- A run goes on to a later place, and no token behind that place makes a difference. -/
def Looks (w : Run α) : Prop := ∀ p r p', w p = some (r, p') →
  (p'.tokens = p.tokens ∧ p.current ≤ p'.current) ∧
    ∀ ts, SameUpTo p'.current p.tokens ts → w (p.on ts) = some (r, p'.on ts)

theorem Looks.bind {w : Run α} {f : α → Run β} (hw : Looks w) (hf : ∀ a, Looks (f a)) :
    Looks (w >>= f) := by
  intro p r p'' hrun
  obtain ⟨e, hw', rfl⟩ | ⟨a, p', hw', hrest⟩ := bind_run_cases hrun
  · obtain ⟨hmoved, hblind⟩ := hw p _ p'' hw'
    exact ⟨hmoved, fun ts hts => bind_run_error f (hblind ts hts)⟩
  · obtain ⟨⟨ht, hle⟩, hblind⟩ := hw p _ p' hw'
    obtain ⟨⟨ht', hle'⟩, hblind'⟩ := hf a p' r p'' hrest
    refine ⟨⟨ht'.trans ht, Nat.le_trans hle hle'⟩, fun ts hts => ?_⟩
    rw [bind_run_ok f (hblind ts (hts.mono hle'))]
    exact hblind' ts (ht ▸ hts)

theorem looks_of_still {w : Run α}
    (h : ∀ p r p', w p = some (r, p') → (p'.tokens = p.tokens ∧ p.current ≤ p'.current) ∧
      ∀ ts, w (p.on ts) = some (r, p'.on ts)) : Looks w :=
  fun p r p' hrun => ⟨(h p r p' hrun).1, fun ts _ => (h p r p' hrun).2 ts⟩

theorem looks_pure (a : α) : Looks (pure a) :=
  looks_of_still fun _ _ _ h => by cases h; exact ⟨⟨rfl, Nat.le_refl _⟩, fun _ => rfl⟩

theorem looks_throw (d : Diagnostic) : Looks (throw d : Run α) :=
  looks_of_still fun _ _ _ h => by cases h; exact ⟨⟨rfl, Nat.le_refl _⟩, fun _ => rfl⟩

theorem looks_tokenAt (place : Parser → Nat) (hplace : ∀ p, place p ≤ p.current)
    (hon : ∀ p ts, place (p.on ts) = place p) :
    Looks (get >>= fun p => tokenAt (place p) : Run Token) := by
  intro p r p' hrun
  obtain ⟨t, ht, rfl, rfl⟩ := tokenAt_run_cases (i := place p) hrun
  refine ⟨⟨rfl, Nat.le_refl _⟩, fun ts hts => ?_⟩
  change tokenAt (place (p'.on ts)) (p'.on ts) = _
  refine tokenAt_eq ?_
  rw [hon]
  exact (hts _ (hplace p')).trans ht

theorem looks_peek : Looks peek :=
  looks_tokenAt current (fun _ => Nat.le_refl _) fun _ _ => rfl

theorem looks_previous : Looks previous :=
  looks_tokenAt (fun p => p.current - 1) (fun _ => Nat.sub_le _ 1) fun _ _ => rfl

theorem looks_advance : Looks advance := by
  have hend : Looks atEnd := looks_peek.bind fun _ => looks_pure _
  have hstep : Looks (modify fun p => { p with current := p.current + 1 } : Run PUnit) :=
    looks_of_still fun _ _ _ h => by cases h; exact ⟨⟨rfl, Nat.le_succ _⟩, fun _ => rfl⟩
  exact hend.bind fun _ => Compositional.ite looks_previous (hstep.bind fun _ => looks_previous)

theorem Looks.attempt {w : Run α} (hw : Looks w) : Looks (attempt w) := by
  intro p r p' hrun
  obtain ⟨r', hw', rfl⟩ := attempt_run_cases hrun
  obtain ⟨hmoved, hblind⟩ := hw p r' p' hw'
  refine ⟨hmoved, fun ts hts => ?_⟩
  rw [Parser.attempt, hblind ts hts]
  rfl

theorem compositional_looks : Compositional fun _ w => Looks w where
  never := fun _ _ _ h => nomatch h
  pure := looks_pure
  bind := .bind
  attempt := .attempt
  peek := looks_peek
  previous := looks_previous
  advance := looks_advance
  failHere := fun _ => looks_peek.bind fun _ => looks_throw _
  keep := fun _ =>
    looks_of_still fun _ _ _ h => by cases h; exact ⟨⟨rfl, Nat.le_refl _⟩, fun _ => rfl⟩
  number := fun _ =>
    looks_of_still fun _ _ _ h => by cases h; exact ⟨⟨rfl, Nat.le_refl _⟩, fun _ => rfl⟩

def openingWords : List Keyword :=
  [.classKw, .funKw, .varKw, .forKw, .ifKw, .whileKw, .printKw, .returnKw]

/-- A place where the next statement may start: the end, behind a semicolon, or before a word that
opens a statement. -/
def IsBoundary (tokens : Array Token) (i : Nat) : Prop :=
  (∃ t ∈ tokens[i]?, t.kind = .eof) ∨ (∃ t ∈ tokens[i - 1]?, t.kind = .punct .semicolon) ∨
    ∃ t ∈ tokens[i]?, ∃ k ∈ openingWords, t.kind = .keyword k

theorem opensStatement_iff {kind : TokenKind} :
    Cursor.opensStatement kind ↔ ∃ k ∈ openingWords, kind = .keyword k := by
  cases kind with
  | keyword k => simp [Cursor.opensStatement, openingWords]
  | _ => simp [Cursor.opensStatement]

theorem isBoundary_iff (ht : tokens[i]? = some t) (hbefore : tokens[i - 1]? = some before) :
    IsBoundary tokens i ↔ t.kind = .eof ∨ before.kind = .punct .semicolon ∨
      Cursor.opensStatement t.kind := by
  simp [IsBoundary, ht, hbefore, opensStatement_iff]

theorem resume_least (h : Stands l c p) (hbefore : p.tokens[p.current - 1]? = some before) :
    ∃ j, Returns (fun depth => run depth .resume p) (.ok (), { p with current := j }) ∧
      IsLeast {i | p.current ≤ i ∧ IsBoundary p.tokens i} j := by
  induction hr : c.rest generalizing c p before with
  | nil =>
    have hend : IsBoundary p.tokens p.current :=
      .inl ⟨c.current, h.tokens_current, h.kind_current.mpr hr⟩
    exact ⟨p.current, .rule ⟨0, fun depth _ => step_resume_nil _ h hr⟩,
      ⟨Nat.le_refl _, hend⟩, fun _ hi => hi.1⟩
  | cons t rest ih =>
    have ht : p.tokens[p.current]? = some t := current_cons hr ▸ h.tokens_current
    have hne : t.kind ≠ .eof := fun hk =>
      List.cons_ne_nil t rest (hr ▸ h.kind_current.mp (current_cons hr ▸ hk))
    have hstep (depth : Nat) := step_resume_cons (run depth) h hr hbefore
    have hiff := isBoundary_iff ht hbefore
    by_cases hstop : (before.kind = .punct .semicolon || Cursor.opensStatement t.kind) = true
    · simp only [if_pos hstop] at hstep
      have hhere : IsBoundary p.tokens p.current := hiff.mpr (.inr (by simpa using hstop))
      exact ⟨p.current, .rule ⟨0, fun depth _ => hstep depth⟩,
        ⟨Nat.le_refl _, hhere⟩, fun _ hi => hi.1⟩
    · simp only [if_neg hstop] at hstep
      have hnot : ¬ IsBoundary p.tokens p.current := by
        rw [hiff]
        simpa [hne] using hstop
      obtain ⟨j, ⟨least, hrun⟩, ⟨hle, hj⟩, hleast⟩ := ih (h.next hr) ht rfl
      refine ⟨j, .rule ⟨least, fun depth hd => (hstep depth).trans (hrun depth hd)⟩,
        ⟨Nat.le_of_succ_le hle, hj⟩, fun i ⟨hi, hbound⟩ => hleast ⟨?_, hbound⟩⟩
      -- the place itself is none, so that a boundary from there on is behind it
      exact Nat.lt_of_le_of_ne hi fun heq => hnot (heq ▸ hbound)

theorem synchronize_least (h : Stands l c p) (hr : c.rest ≠ []) :
    ∃ j, Returns (fun depth => run depth .synchronize p) (.ok (), { p with current := j }) ∧
      IsLeast {i | p.current < i ∧ IsBoundary p.tokens i} j := by
  obtain ⟨t, rest, hr⟩ := List.exists_cons_of_ne_nil hr
  have ht : p.tokens[p.current]? = some t := current_cons hr ▸ h.tokens_current
  obtain ⟨j, hrun, hj⟩ := resume_least (h.next hr) ht
  exact ⟨j, .rule (.bind (.of_eq (advance_eq h hr)) hrun), hj⟩

theorem synchronize_stays (h : Stands l c p) (hr : c.rest = []) :
    Returns (fun depth => run depth .synchronize p) (.ok (), p) := by
  obtain ⟨t, hadvance⟩ := advance_eq_of_nil h hr
  have hresume : Returns (fun depth => run depth .resume p) (.ok (), p) :=
    .rule ⟨0, fun depth _ => step_resume_nil _ h hr⟩
  exact .rule (.bind (.of_eq hadvance) hresume)

theorem synchronize_resumes (ht : p.tokens = l.tokens) (hp : p.current ≤ l.code.length) :
    ∃ j, Returns (fun depth => run depth .synchronize p) (.ok (), { p with current := j }) ∧
      (p.current < l.code.length → IsLeast {i | p.current < i ∧ IsBoundary p.tokens i} j) ∧
      (p.current = l.code.length → j = l.code.length) := by
  have hs : Stands l (l.cursor p) p := l.stands ht hp
  have hrest : (l.cursor p).rest = [] ↔ p.current = l.code.length := by
    rw [Layout.cursor, List.drop_eq_nil_iff]
    omega
  by_cases hend : p.current = l.code.length
  · exact ⟨p.current, synchronize_stays hs (hrest.mpr hend),
      fun hlt => absurd hend (Nat.ne_of_lt hlt), fun h => h⟩
  · obtain ⟨j, hsync, hj⟩ := synchronize_least hs (mt hrest.mp hend)
    exact ⟨j, hsync, fun _ => hj, fun h => absurd h hend⟩

theorem IsFirstEnd.unique (h : IsFirstEnd tokens i) (h' : IsFirstEnd tokens j) : i = j := by
  obtain hlt | heq | hlt := Nat.lt_trichotomy i j
  · exact absurd h.kind (h'.before i hlt)
  · exact heq
  · exact absurd h'.kind (h.before j hlt)

theorem unguarded_fails (h : Stands l c p) (hc : Parse.declarationRule (n + 1)
      (Parse.expression (n + 1)) (Parse.statement n) (Parse.declaration n) c =
        .error (.fault d) c') :
    ∃ q, Returns (fun depth => run depth .unguarded p) (.error d, q) ∧ Stands l c' q := by
  have hm : MirrorsAt l (run · .unguarded) (Parse.declarationRule (n + 1)
      (Parse.expression (n + 1)) (Parse.statement n) (Parse.declaration n)) c p :=
    mirrors_unguarded (mirrors_expression (n + 1)) (mirrors_statement_declaration n).1
      (mirrors_statement_declaration n).2 c p h
  unfold MirrorsAt at hm
  rw [hc] at hm
  exact hm

theorem declaration_returns {d : Diagnostic}
    (hfail : Returns (fun depth => run depth .unguarded p) (.error d, q))
    (hsync : Returns (fun depth => run depth .synchronize { q with faults := q.faults ++ [d] })
      (.ok (), p')) :
    Returns (fun depth => run depth .declaration p) (.ok none, p') :=
  .rule (.bind hfail.attempt (.bind (.of_eq rfl) (.bind hsync (.of_eq rfl))))

theorem Returns.blames {rule : Rule α} {r : Except Diagnostic α}
    (h : Returns (fun depth => run depth rule p) (r, q)) :
    p.faults <+: q.faults ∧ ∀ d, r = .error d → RaisedAt q d := by
  obtain ⟨least, h⟩ := h
  exact compositional_blames.run least rule p r q (h least (Nat.le_refl _))

theorem Returns.looks {rule : Rule α} {r : Except Diagnostic α}
    (h : Returns (fun depth => run depth rule p) (r, q)) (hts : SameUpTo q.current p.tokens ts) :
    Returns (fun depth => run depth rule (p.on ts)) (r, q.on ts) :=
  h.mono fun depth h => (compositional_looks.run depth rule p r q h).2 ts hts

/-- A declaration that cannot be read. Its fault was raised at the token where the parser stands
when the fault has unwound, on the line and at the place of that token, and it is kept behind all
that were kept before. Unless that token is the end, parsing goes on at the first boundary behind it,
and the tokens behind that boundary make no difference; otherwise it stays at the end. -/
theorem recovery_resumes {tokens : List Token} {nextId last : Nat} {d : Diagnostic}
    (hlast : IsFirstEnd (new tokens nextId).tokens last)
    (ht : p.tokens = (new tokens nextId).tokens) (hp : p.current ≤ last)
    (hfail : Returns (fun depth => run depth .unguarded p) (.error d, q)) :
    Onward last p q ∧ p.faults <+: q.faults ∧
      (∃ t ∈ p.tokens[q.current]?, (∃ fault, d = .syntactic fault t) ∧ d.line? = some t.line ∧
        d.location = Diagnostic.place t) ∧
      ∃ j, Returns (fun depth => run depth .declaration p)
          (.ok none, { q with current := j, faults := q.faults ++ [d] }) ∧
        (q.current < last → IsLeast {i | q.current < i ∧ IsBoundary p.tokens i} j) ∧
        (q.current = last → j = last) ∧
        ∀ ts, SameUpTo j p.tokens ts → Returns (fun depth => run depth .declaration (p.on ts))
          (.ok none, { q with tokens := ts, current := j, faults := q.faults ++ [d] }) := by
  obtain ⟨l, hnew⟩ := stands_new tokens nextId
  have hl : last = l.code.length := hlast.unique (hnew.tokens ▸ l.isFirstEnd)
  have hon : Onward last p q := by
    obtain ⟨least, hrun⟩ := hfail
    exact moves_run hlast least .unguarded p _ q ht hp (hrun least (Nat.le_refl _))
  obtain ⟨hkept, hraised⟩ := hfail.blames
  obtain ⟨t, hat, fault, rfl⟩ := hraised _ rfl
  obtain ⟨j, hsync, hleast, hstays⟩ := synchronize_resumes
    (p := { q with faults := q.faults ++ [.syntactic fault t] })
    (hon.tokens.trans (ht.trans hnew.tokens)) (hl ▸ hon.current_le)
  have hdecl := declaration_returns hfail hsync
  exact ⟨hon, hkept, ⟨t, hon.tokens ▸ hat, ⟨fault, rfl⟩, rfl, rfl⟩, j, hdecl,
    hl ▸ hon.tokens ▸ hleast, hl ▸ hstays, fun ts hts => hdecl.looks hts⟩

theorem recovery_resumes_class :
    let tokens : List Token := [⟨.keyword .classKw, "class", 1⟩, ⟨.identifier, "A", 1⟩,
      ⟨.punct .leftBrace, "\x7b", 1⟩, ⟨.identifier, "m", 2⟩, ⟨.punct .leftParen, "(", 2⟩,
      ⟨.punct .rightParen, ")", 2⟩, ⟨.punct .leftBrace, "\x7b", 2⟩, ⟨.keyword .varKw, "var", 3⟩,
      ⟨.punct .semicolon, ";", 3⟩, ⟨.keyword .thisKw, "this", 4⟩, ⟨.punct .equal, "=", 4⟩,
      ⟨.identifier, "x", 4⟩, ⟨.punct .semicolon, ";", 4⟩, ⟨.punct .rightBrace, "\x7d", 5⟩,
      ⟨.punct .plus, "+", 6⟩, ⟨.punct .rightBrace, "\x7d", 7⟩, ⟨.keyword .printKw, "print", 8⟩,
      ⟨.identifier, "x", 8⟩, ⟨.punct .semicolon, ";", 8⟩]
    let p := new tokens 0
    IsFirstEnd p.tokens 19 ∧ ∃ d q, Returns (fun depth => run depth .unguarded p) (.error d, q) ∧
      q.current = 14 ∧ q.faults.length = 2 ∧ d.line? = some 6 ∧
      ∃ j, Returns (fun depth => run depth .declaration p)
          (.ok none, { q with current := j, faults := q.faults ++ [d] }) ∧
        IsLeast {i | 14 < i ∧ IsBoundary p.tokens i} j := by
  intro tokens p
  have hlast : IsFirstEnd p.tokens 19 := ⟨by decide +kernel, by decide +kernel⟩
  obtain ⟨l, hnew⟩ := stands_new tokens 0
  have hl : 19 = l.code.length := hlast.unique (hnew.tokens ▸ l.isFirstEnd)
  have hends : (match Parse.declarationRule (18 + 1) (Parse.expression (18 + 1))
      (Parse.statement 18) (Parse.declaration 18) (Cursor.ofTokens tokens 0) with
    | .error (.fault _) c => c.rest.length == 5 && c.faults.length == 2
    | _ => false) = true := by decide +kernel
  split at hends
  · next d c hc =>
    obtain ⟨q, hfail, hs⟩ := unguarded_fails hnew hc
    obtain ⟨hrest, hfaults⟩ := Bool.and_eq_true_iff.mp hends
    have hlen := hs.length_rest
    have hle := hs.current_le
    rw [eq_of_beq hrest] at hlen
    have hq : q.current = 14 := by omega
    obtain ⟨-, -, ⟨t, ht, -, hline, -⟩, j, hdecl, hj, -⟩ :=
      recovery_resumes hlast rfl (Nat.zero_le 19) hfail
    refine ⟨hlast, d, q, hfail, hq, hs.faults ▸ eq_of_beq hfaults, ?_, j, hdecl, ?_⟩
    · rw [hq] at ht
      cases ht
      exact hline
    · rw [hq] at hj
      exact hj (by decide)
  · cases hends

end Parser

end Treewalk

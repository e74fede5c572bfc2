import Mathlib.Data.List.TakeWhile
import Treewalk.Proofs.Grammar.Indexed.Moving
import Treewalk.Proofs.Grammar.Indexed.Rules
import Treewalk.Proofs.Grammar.Soundness.Statement

namespace Treewalk

namespace Parser

/-- A run from `p` ends, with a result or a fault, and has moved on within the range. -/
def Ends {α : Type} (last : Nat) (w : Nat → Run α) (p : Parser) : Prop :=
  ∃ r p', Returns (fun depth => w depth p) (r, p') ∧ Onward last p p'

variable {α : Type} {l : Layout} {c d : Cursor} {p p' p'' : Parser} {last k n : Nat}

def Layout.cursor (l : Layout) (p : Parser) : Cursor :=
  ⟨l.code.drop p.current, l.eof, p.nextId, p.faults⟩

theorem Layout.stands (l : Layout) (ht : p.tokens = l.tokens) (hp : p.current ≤ l.code.length) :
    Stands l (l.cursor p) p :=
  ⟨ht, rfl, rfl, hp, rfl, rfl⟩

theorem Layout.isFirstEnd (l : Layout) : IsFirstEnd l.tokens l.code.length := by
  refine ⟨by simp [Layout.tokens, l.eof_kind], fun i hi => ?_⟩
  have hget : l.tokens[i]? = some l.code[i] := by
    rw [Layout.tokens, List.getElem?_toArray, List.getElem?_append_left hi,
      List.getElem?_eq_getElem hi]
  rw [hget, Option.map_some, ne_eq, Option.some_inj]
  exact l.code_ne l.code[i] (List.getElem_mem hi)

theorem Stands.onward (h : Stands l c p) (h' : Stands l d p')
    (hle : d.rest.length ≤ c.rest.length) : Onward l.code.length p p' := by
  have hc := h.length_rest
  have hd := h'.length_rest
  have hp := h.current_le
  have hp' := h'.current_le
  exact ⟨h'.tokens.trans h.tokens.symm, by omega, hp'⟩

theorem Stands.current_lt (h : Stands l c p) (h' : Stands l d p')
    (hlt : d.rest.length < c.rest.length) : p.current < p'.current := by
  have hc := h.length_rest
  have hd := h'.length_rest
  omega

theorem MirrorsAt.ends {w : Nat → Run α} {q : Parse α} {R : Grammar.Reading α} (h : Stands l c p)
    (hw : MirrorsAt l w q c p) (hq : Grammar.MeetsAt c.fuel k q R c) :
    Ends l.code.length w p := by
  unfold MirrorsAt at hw
  unfold Grammar.MeetsAt at hq
  match hr : q c, hq with
  | .ok a d, ⟨hl, _, _⟩ =>
    rw [hr] at hw
    obtain ⟨p', hp, hs⟩ := hw
    exact ⟨_, p', hp, h.onward hs hl.length_le⟩
  | .error (.fault e) d, hl =>
    rw [hr] at hw
    obtain ⟨p', hp, hs⟩ := hw
    exact ⟨_, p', hp, h.onward hs hl.length_le⟩
  | .error .exhausted d, ⟨_, hlen⟩ => exact absurd hlen (Nat.not_succ_le_self _)

theorem advance_ends (h : Stands l c p) : Ends l.code.length (fun _ => advance) p := by
  cases hr : c.rest with
  | nil =>
    obtain ⟨t, ht⟩ := advance_eq_of_nil h hr
    exact ⟨_, p, .of_eq ht, .refl h.current_le⟩
  | cons t ts =>
    exact ⟨_, _, .of_eq (advance_eq h hr), h.onward (h.next hr) (by simp [hr])⟩

theorem synchronize_ends (h : Stands l c p) : Ends l.code.length (run · .synchronize) p := by
  obtain ⟨p', hp, hs⟩ := synchronize_returns h
  exact ⟨_, p', hp, h.onward hs c.leads_synchronize.length_le⟩

theorem expression_ends (h : Stands l c p) : Ends l.code.length (run · .expression) p :=
  (mirrors_expression c.fuel c p h).ends h (Grammar.meets_expression c.fuel c h.eof_kind)

theorem statement_ends (h : Stands l c p) : Ends l.code.length (run · .statement) p :=
  ((mirrors_statement_declaration c.fuel).1 c p h).ends h
    ((Grammar.meets_statement_declaration c.fuel).1 c h.eof_kind)

theorem declaration_moves (h : Stands l c p) (hp : p.current < l.code.length) :
    ∃ s p', Returns (fun depth => run depth .declaration p) (.ok s, p') ∧
      Onward l.code.length p p' ∧ p.current < p'.current := by
  have hne : c.rest ≠ [] := by
    rw [← List.length_pos_iff, h.length_rest]
    omega
  obtain ⟨s, d, hd, hl, hlt, -⟩ := Grammar.declaration_ok h.eof_kind hne
  have hm := (mirrors_statement_declaration (l := l) c.fuel).2 c p h
  unfold MirrorsAt at hm
  rw [hd] at hm
  obtain ⟨p', hrun, hs⟩ := hm
  exact ⟨s, p', hrun, h.onward hs hl.length_le, h.current_lt hs hlt⟩

theorem program_succ (n : Nat) (c : Cursor) :
    Parse.program (n + 1) c = (do
      if ← Parse.atEnd then return []
      else
        let s ← (Parse.declaration c.fuel : Parse (Option Stmt))
        return s.toList ++ (← (Parse.program n : Parse (List Stmt))) : Parse (List Stmt)) c := by
  rw [Parse.program, Parse.bind_ok _ (show Parse.atEnd c = .ok c.rest.isEmpty c from rfl)]
  split
  · rfl
  · cases hd : Parse.declaration c.fuel c with
    | error e d => exact (Parse.bind_error _ hd).symm
    | ok s d =>
      rw [Parse.bind_ok _ hd]
      dsimp only
      cases hp : Parse.program n d with
      | error e d' => exact (Parse.bind_error _ hp).symm
      | ok ss d' =>
        rw [Parse.bind_ok _ hp]
        rfl

theorem mirrors_program (n : Nat) : Mirrors l (run · .program) (Parse.program n) := by
  induction n with
  | zero => exact fun _ _ _ => trivial
  | succ n ih =>
    intro c p h
    apply MirrorsAt.rule
    unfold MirrorsAt
    rw [program_succ]
    refine Mirrors.test mirrors_atEnd (mirrors_pure []) ?_ c p h
    refine (mirrors_statement_declaration c.fuel).2.bind fun
      | some s => ih.bind fun ss => mirrors_pure (s :: ss)
      | none => ?_
    have hnone : (Parse.program n >>= fun ss => pure ([] ++ ss) : Parse (List Stmt)) =
      Parse.program n := bind_pure _
    exact hnone.symm ▸ ih

theorem run_parse (h : Stands l c p) :
    ∃ p', Returns (fun depth => Call.run depth p .parse) (.program c.program.1, p') ∧
      Stands l c.program.2 p' ∧ c.program.2.rest = [] := by
  obtain ⟨ss, d, hd, -, hnil, -⟩ := Grammar.program_ok h.eof_kind (Nat.lt_succ_self c.rest.length)
  have hp := mirrors_program c.fuel c p h
  unfold MirrorsAt at hp
  rw [Cursor.fuel, hd] at hp
  obtain ⟨p', hrun, hs⟩ := hp
  have hprogram : c.program = (ss, d) := by simp only [Cursor.program, Cursor.fuel, hd]
  rw [hprogram]
  refine ⟨p', hrun.mono fun depth (hrun : run depth .program p = _) => ?_, hs, hnil⟩
  rw [Call.run, hrun]
  rfl

def whole (n : Nat) : Parse Expr := do
  let e ← (Parse.expression n : Parse Expr)
  if ← Parse.atEnd then return e else Parse.failHere .expectedEnd

theorem mirrors_whole (n : Nat) : Mirrors l wholeExpression (whole n) :=
  (mirrors_expression n).bind fun e => .test mirrors_atEnd (mirrors_pure e)
    (mirrors_failHere .expectedEnd)

theorem meets_whole (n : Nat) : Grammar.Meets n 1 (whole n) fun _ _ _ _ _ => True := by
  have hend (e : Expr) : Grammar.Meets n 0
      (do if ← Parse.atEnd then return e else Parse.failHere .expectedEnd)
      fun _ _ _ _ _ => True := by
    intro c _
    change Grammar.Outcome n 0 _ c ((if c.rest.isEmpty then _ else _ : Parse Expr) c)
    split
    · exact ⟨.refl c, Nat.le_refl _, fun _ => trivial⟩
    · exact .refl c
  exact ((Grammar.meets_expression n).bind hend).mono (fun _ _ _ _ _ _ => trivial)
    (Nat.le_refl _) (Nat.le_refl _)

theorem expression_of_ok (h : whole c.fuel c = .ok e d) : c.expression = (some e, d) := by
  simp only [whole] at h
  simp only [Cursor.expression, h]

theorem expression_of_fault (h : whole c.fuel c = .error (.fault f) d) :
    c.expression = (none, d.report f) := by
  simp only [whole] at h
  simp only [Cursor.expression, h]

theorem run_parseExpression (h : Stands l c p) :
    ∃ p', Returns (fun depth => Call.run depth p .parseExpression)
        (.expression c.expression.1, p') ∧
      Stands l c.expression.2 p' ∧ c.Leads c.expression.2 := by
  have hm := mirrors_whole c.fuel c p h
  have hq := meets_whole c.fuel c h.eof_kind
  unfold MirrorsAt at hm
  unfold Grammar.MeetsAt at hq
  cases hw : whole c.fuel c with
  | ok e d =>
    rw [hw] at hm hq
    obtain ⟨p', hrun, hs⟩ := hm
    rw [expression_of_ok hw]
    refine ⟨p', hrun.mono fun depth hrun => ?_, hs, hq.1⟩
    rw [Call.run, hrun]
    rfl
  | error halt d =>
    rw [hw] at hm hq
    cases halt with
    | fault e =>
      obtain ⟨p', hrun, hs⟩ := hm
      rw [expression_of_fault hw]
      refine ⟨_, hrun.mono fun depth hrun => ?_, hs.keep e, hq.trans (d.leads_report e)⟩
      rw [Call.run, hrun]
      rfl
    | exhausted => exact absurd hq.2 (Nat.not_succ_le_self _)

theorem Call.run_onward (h : Stands l c p) (call : Call) :
    ∃ answer p', Returns (fun depth => call.run depth p) (answer, p') ∧
      Onward l.code.length p p' ∧ (call = .parse → p'.current = l.code.length) := by
  cases call with
  | parse =>
    obtain ⟨p', hrun, hs, hnil⟩ := run_parse h
    have hlen := hs.length_rest
    have hle := hs.current_le
    rw [hnil, List.length_nil] at hlen
    exact ⟨_, p', hrun, h.onward hs (by simp [hnil]), fun _ => by omega⟩
  | parseExpression =>
    obtain ⟨p', hrun, hs, hl⟩ := run_parseExpression h
    exact ⟨_, p', hrun, h.onward hs hl.length_le, nofun⟩
  | errors => exact ⟨_, p, .of_eq rfl, .refl h.current_le, nofun⟩
  | takeErrors => exact ⟨_, _, .of_eq rfl, ⟨rfl, Nat.le_refl _, h.current_le⟩, nofun⟩

theorem behind_onward (calls : List Call) (ht : p.tokens = l.tokens)
    (hp : p.current ≤ l.code.length) :
    ∃ p', Returns (fun depth => p.behind depth calls) p' ∧ Onward l.code.length p p' := by
  induction calls generalizing p with
  | nil => exact ⟨p, .of_eq rfl, .refl hp⟩
  | cons call calls ih =>
    obtain ⟨answer, p', hrun, ho, -⟩ := call.run_onward (l.stands ht hp)
    obtain ⟨p'', hbehind, ho'⟩ := ih (ho.tokens.trans ht) ho.current_le
    refine ⟨p'', hrun.trans hbehind fun depth hrun hbehind => ?_, ho.trans ho'⟩
    rw [behind, hrun]
    exact hbehind

theorem tokens_new (tokens : List Token) (nextId : Nat) :
    ∃ more, (new tokens nextId).tokens = (tokens ++ more).toArray ∧
      (tokens.find? (·.kind = .eof) = none →
        more = [⟨.eof, "", (tokens.getLast?.map Token.line).getD 1⟩]) := by
  rw [new]
  split
  · next hlast =>
    refine ⟨[], by simp, fun hnone => ?_⟩
    rw [Option.any_eq_true] at hlast
    obtain ⟨t, ht, hkind⟩ := hlast
    exact absurd hkind (List.find?_eq_none.mp hnone t (List.mem_of_getLast? ht))
  · exact ⟨_, List.push_toArray .., fun _ => rfl⟩

theorem stands_new (tokens : List Token) (nextId : Nat) :
    ∃ l : Layout, Stands l (Cursor.ofTokens tokens nextId) (new tokens nextId) := by
  obtain ⟨more, hnew, hmore⟩ := tokens_new tokens nextId
  cases hfind : tokens.find? (·.kind = .eof) with
  | none =>
    have hcode : ∀ t ∈ tokens, t.kind ≠ .eof := by simpa using hfind
    have hrest : tokens.takeWhile (·.kind ≠ .eof) = tokens :=
      List.takeWhile_eq_self_iff.mpr (by simpa using hcode)
    refine ⟨⟨tokens, _, [], hcode, rfl⟩, by rw [hnew, hmore hfind]; rfl, ?_, hrest,
      Nat.zero_le _, rfl, rfl⟩
    rw [Cursor.ofTokens, hfind]
    rfl
  | some e =>
    obtain ⟨he, code, beyond, rfl, hcode⟩ := List.find?_eq_some_iff_append.mp hfind
    replace he : e.kind = .eof := by simpa using he
    replace hcode : ∀ t ∈ code, t.kind ≠ .eof := by simpa using hcode
    have hrest : (code ++ e :: beyond).takeWhile (·.kind ≠ .eof) = code := by
      rw [List.takeWhile_append_of_pos (by simpa using hcode)]
      simp [he]
    refine ⟨⟨code, e, beyond ++ more, hcode, he⟩, ?_, ?_, hrest, Nat.zero_le _, rfl, rfl⟩
    · rw [hnew, Layout.tokens]
      simp
    · rw [Cursor.ofTokens, hfind]
      rfl

theorem parse_new (tokens : List Token) (nextId : Nat) :
    ∃ p', Returns (fun depth => Call.run depth (new tokens nextId) .parse)
        (.program (Cursor.ofTokens tokens nextId).program.1, p') ∧
      p'.faults = (Cursor.ofTokens tokens nextId).program.2.faults ∧
      p'.nextId = (Cursor.ofTokens tokens nextId).program.2.nextId := by
  obtain ⟨l, hnew⟩ := stands_new tokens nextId
  obtain ⟨p', hrun, hs, -⟩ := run_parse hnew
  exact ⟨p', hrun, hs.faults, hs.nextId⟩

theorem parseExpression_new (tokens : List Token) (nextId : Nat) :
    ∃ p', Returns (fun depth => Call.run depth (new tokens nextId) .parseExpression)
        (.expression (Cursor.ofTokens tokens nextId).expression.1, p') ∧
      p'.faults = (Cursor.ofTokens tokens nextId).expression.2.faults ∧
      p'.nextId = (Cursor.ofTokens tokens nextId).expression.2.nextId := by
  obtain ⟨l, hnew⟩ := stands_new tokens nextId
  obtain ⟨p', hrun, hs, -⟩ := run_parseExpression hnew
  exact ⟨p', hrun, hs.faults, hs.nextId⟩

/-- Whatever the tokens are and whatever has been called, every call ends, and so do the rules from
every place. On the way there is no rule but moves on, up to the first end at most. A declaration
that is not at the end moves on even if it cannot be read. -/
theorem calls_end_in_range (tokens : List Token) (nextId : Nat) :
    ∃ last, IsFirstEnd (new tokens nextId).tokens last ∧
      (∀ calls, ∃ p, Returns (fun depth => (new tokens nextId).behind depth calls) p ∧
        Onward last (new tokens nextId) p ∧
        ∀ call : Call, ∃ answer p', Returns (fun depth => call.run depth p) (answer, p') ∧
          Onward last p p' ∧ (call = .parse → p'.current = last)) ∧
      (∀ depth, ∀ {α : Type} (rule : Rule α),
        Moves (new tokens nextId).tokens last (run depth rule)) ∧
      ∀ p : Parser, p.tokens = (new tokens nextId).tokens → p.current ≤ last →
        Ends last (fun _ => advance) p ∧ Ends last (run · .synchronize) p ∧
        Ends last (run · .expression) p ∧ Ends last (run · .statement) p ∧
        (p.current < last → ∃ s p', Returns (fun depth => run depth .declaration p) (.ok s, p') ∧
          Onward last p p' ∧ p.current < p'.current) := by
  obtain ⟨l, hnew⟩ := stands_new tokens nextId
  have hlast : IsFirstEnd (new tokens nextId).tokens l.code.length := hnew.tokens ▸ l.isFirstEnd
  refine ⟨l.code.length, hlast, fun calls => ?_, fun depth _ => moves_run hlast depth,
    fun p ht hp => ?_⟩
  · obtain ⟨p, hbehind, ho⟩ := behind_onward calls hnew.tokens hnew.current_le
    have hs := l.stands (ho.tokens.trans hnew.tokens) ho.current_le
    exact ⟨p, hbehind, ho, fun call => call.run_onward hs⟩
  · have hs := l.stands (ht.trans hnew.tokens) hp
    exact ⟨advance_ends hs, synchronize_ends hs, expression_ends hs, statement_ends hs,
      declaration_moves hs⟩

end Parser

end Treewalk

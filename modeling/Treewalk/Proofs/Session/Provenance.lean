import Treewalk.Proofs.Scanning.Pieces
import Treewalk.Proofs.Scoping.Correspondence
import Treewalk.Proofs.Session.Channels
import Treewalk.Proofs.Session.Script
import Treewalk.Proofs.SideBySide.Session

namespace Treewalk

def Wording.among (S : Token → Prop) : Wording :=
  plain (fun t t' => t' = t ∧ S t) (fun h => h.1 ▸ rfl) (fun h => h.1 ▸ rfl)

def Subject.Among (S : Token → Prop) : Subject → Prop
  | .expr e => ∃ marks, e.Alike (.among S) (.shift 0 0) marks e
  | .exprs es => ∃ marks, Expr.AlikeAll (.among S) (.shift 0 0) marks es es
  | .stmt s => ∃ marks, s.Alike (.among S) (.shift 0 0) marks s
  | .stmts ss => ∃ marks, Stmt.AlikeAll (.among S) (.shift 0 0) marks ss ss
  | .function decl => ∃ marks, Stmt.AlikeFunction (.among S) (.shift 0 0) marks decl decl
  | .methods decls => ∃ marks, Stmt.AlikeMethods (.among S) (.shift 0 0) marks decls decls

variable {S : Token → Prop}

namespace Wording

theorem keepsNames_among (S : Token → Prop) : (among S).KeepsNames :=
  ⟨fun _ => trivial, fun _ _ => rfl⟩

theorem Named.among {t : Token} (h : (among S).Named marked t t) : S t :=
  ((keepsNames_among S).same h).2

theorem Occurs.among {P : Pairing} {ref : Ref} (h : (among S).Occurs P marks ref ref) :
    S ref.token := by
  obtain ⟨_, -, hn⟩ := h
  exact hn.among

end Wording

theorem Resolves.among (h : Resolves v w) (hv : v.subject.Among S) : w.subject.Among S := by
  cases h with
  | var =>
    obtain ⟨marks, hv⟩ := hv
    cases hv with
    | var _ hi =>
      cases hi with
      | some he => exact ⟨_, he⟩
  | ret =>
    obtain ⟨marks, hv⟩ := hv
    cases hv with
    | ret _ hv =>
      cases hv with
      | some he => exact ⟨_, he⟩
  | superclass =>
    obtain ⟨marks, hv⟩ := hv
    cases hv with
    | derived _ ho _ => exact ⟨_, .name ho⟩
  | _ =>
    obtain ⟨marks, hv⟩ := hv
    cases hv
    exact ⟨_, ‹_›⟩

theorem Cursor.among_self {c : Cursor} (hrest : ∀ t ∈ c.rest, S t) (heof : S c.eof)
    (hfaults : c.faults = []) : c.Alike (.among S) (.shift 0 0) c := by
  refine ⟨List.forall₂_same.mpr fun t ht => ⟨rfl, hrest t ht⟩, ⟨rfl, heof⟩, hfaults ▸ .nil,
    fun k => ⟨none, c.nextId + k, ?_⟩⟩
  rw [Nat.zero_add]
  exact ⟨rfl, rfl⟩

namespace Scanned

variable {source : String} {t : Token}

theorem exists_eof (source : String) : ∃ t ∈ (ofSource source).tokens, t.kind = .eof := by
  obtain ⟨_, _, -, hscan⟩ := scanFrom_tiles 1 source.toList
  refine ⟨⟨.eof, "", 1 + source.toList.count '\n'⟩, mem_tokens.mpr ?_, rfl⟩
  rw [show scan source = _ from hscan]
  exact List.mem_append_right _ (List.mem_singleton_self _)

theorem eof_mem_tokens (source : String) (nextId : Nat) :
    (Cursor.ofTokens (ofSource source).tokens nextId).eof ∈ (ofSource source).tokens := by
  obtain ⟨t, ht, hkind⟩ := exists_eof source
  cases hfind : (ofSource source).tokens.find? (·.kind = .eof) with
  | none => exact absurd hkind (by simpa using List.find?_eq_none.mp hfind t ht)
  | some t =>
    simp only [Cursor.ofTokens, hfind, Option.getD_some]
    exact List.mem_of_find?_eq_some hfind

end Scanned

namespace Session

variable {s : Session} {source : String}

theorem token_of_parse (h : d ∈ (s.parse source).2.1) : d ∈ (Scanned.ofSource source).faults ∨
    ∃ fault, ∃ t ∈ (Scanned.ofSource source).tokens, d = .syntactic fault t := by
  obtain h | h := List.mem_append.mp h
  · exact .inl h
  · have hc := Cursor.among_self (S := (· ∈ (Scanned.ofSource source).tokens))
      (c := .ofTokens (Scanned.ofSource source).tokens s.nextId)
      (fun t ht => Scanned.mem_tokens_of_mem_code ht) (Scanned.eof_mem_tokens source _) rfl
    have hfaults := (Cursor.alike_program (Wording.keepsNames_among _) hc).2.faults
    cases List.forall₂_same.mp hfaults d h with
    | syntactic ht => exact .inr ⟨_, _, ht.2, rfl⟩

theorem among_parse (hp : (s.parse source).2.1 = [])
    (hs : ∀ t ∈ (Scanned.ofSource source).code, S t) :
    Stmt.AlikeAll (.among S) (.shift 0 0) [] (s.parse source).1 (s.parse source).1 := by
  have hreads := reads_parse hp
  generalize (s.parse source).1 = ss, (s.parse source).2.2.nextId = n at hreads ⊢
  generalize (Scanned.ofSource source).code = ts at hreads hs
  cases ts with
  | nil =>
    cases hreads with
    | nil => exact .nil
    | cons h _ =>
      obtain ⟨t, mid, hts, -⟩ := h.opens
      cases hts
  | cons t ts =>
    -- parsing never comes to the end, so that any token may stand there
    have hparse : Parse.program (t :: ts).length.succ ⟨t :: ts, t, s.nextId, []⟩ =
        .ok ss ⟨[], t, n, []⟩ := Grammar.program_of_reads hreads (Nat.lt_succ_self _)
    have hc : Cursor.Alike (.among S) (.shift 0 0) ⟨t :: ts, t, s.nextId, []⟩ _ :=
      Cursor.among_self hs (hs t List.mem_cons_self) rfl
    have h := Parse.agree_program (Wording.keepsNames_among S) (t :: ts).length.succ _ _ hc
    rw [hparse] at h
    cases h with
    | ok hss _ => exact hss []

theorem token_of_resolve (hp : (s.parse source).2.1 = [])
    (h : d ∈ ((s.parse source).2.2.resolve (s.parse source).1).1) :
    ∃ fault, ∃ t ∈ (Scanned.ofSource source).code, d = .resolution fault t := by
  have htrees := among_parse hp fun t ht => ht
  have hr : (Treewalk.resolve (s.parse source).1 s.machine.distances).Alike
      (.among (· ∈ (Scanned.ofSource source).code)) 0 0
      (Treewalk.resolve (s.parse source).1 s.machine.distances) :=
    htrees.resolve (Wording.keepsNames_among _) _ ⟨rfl, .nil, fun _ => rfl⟩
  cases List.forall₂_same.mp hr.faults d h with
  | resolution ht => exact ⟨_, _, ht.2, rfl⟩

end Session

theorem Visits.among {s : Session} (h : Visits s source v)
    (hs : ∀ t ∈ (Scanned.ofSource source).code, S t) : v.subject.Among S := by
  induction h with
  | start ha => exact ⟨[], Session.among_parse ha.parsed hs⟩
  | step _ hstep ih => exact hstep.among ih

theorem History.play {s : Session} (h : History s points seen)
    (hseen : ∀ v, seen v → v.subject.Among S) (entries : List Entry)
    (hs : ∀ source ∈ entries.filterMap Entry.source?, ∀ t ∈ (Scanned.ofSource source).code, S t) :
    ∃ points seen, History (s.play entries) points seen ∧ ∀ v, seen v → v.subject.Among S := by
  induction entries generalizing s points seen with
  | nil => exact ⟨points, seen, h, hseen⟩
  | cons entry entries ih =>
    cases entry with
    | native native => exact ih (h.native native) hseen hs
    | unit fuel source =>
      refine ih (h.unit fuel source) ?_ fun source' hmem => hs source' (.tail _ hmem)
      rintro v (hv | hv)
      · exact hseen v hv
      · exact hv.among (hs source (.head _))

namespace Subject

theorem Among.blamed_expr (h : Among S (.expr e)) (ht : t ∈ (Code.expr e).blamed) : S t := by
  obtain ⟨marks, h⟩ := h
  cases h with
  | literal | group | logical | call => cases ht
  | unary hop | binary _ hop | get _ hop | set _ hop =>
    rw [List.mem_singleton.mp ht]
    exact hop.2
  | name ho | assign ho | receiver ho =>
    rw [List.mem_singleton.mp ht]
    exact ho.among
  | inherited _ hr hm =>
    simp only [Code.blamed, List.mem_cons, List.not_mem_nil, or_false] at ht
    obtain rfl | rfl := ht
    · exact hr.2
    · exact hm.2

theorem Among.blamed_stmt (h : Among S (.stmt s)) (ht : t ∈ (Code.stmt s).blamed) : S t := by
  obtain ⟨marks, h⟩ := h
  cases h with
  | base hn =>
    rw [List.mem_singleton.mp ht]
    exact hn.same.2
  | derived hn ho =>
    simp only [Code.blamed, Run.superclassToken, List.mem_cons, List.not_mem_nil, or_false] at ht
    obtain rfl | rfl := ht
    · exact hn.same.2
    · exact ho.among
  | _ => cases ht

theorem Among.paren {paren : Token} (h : Among S (.expr (.call callee paren args))) :
    S paren := by
  obtain ⟨marks, h⟩ := h
  cases h with
  | call _ hparen _ => exact hparen.2

end Subject

theorem Executes.caller {s : Session} (h : Executes s fuel source ⟨n, .apply f paren args, m⟩) :
    ∃ n' callee args' m', Executes s fuel source ⟨n', .expr (.call callee paren args'), m'⟩ := by
  cases h with
  | start _ hp =>
    have hstmt : ∀ {ss : List Stmt} {m : Machine} {p : Point}, Starts fuel ss m p →
        ∃ s, p.code = .stmt s := by
      intro ss m p hp
      induction hp with
      | head => exact ⟨_, rfl⟩
      | tail _ _ ih => exact ih
    obtain ⟨_, hcode⟩ := hstmt hp
    cases hcode
  | call h hc =>
    cases hc with
    | apply => exact ⟨_, _, _, _, h⟩

variable {points : Point → Prop} {seen : Visit → Prop}

theorem Fine.among_expr (h : Fine points seen ⟨n, .expr e, m⟩)
    (hseen : ∀ v, seen v → v.subject.Among S) : Subject.Among S (.expr e) := by
  obtain ⟨_, _, _, -, -, hplace⟩ := h.placed
  obtain ⟨v, hv, hsubject, -⟩ := hplace.visit
  rw [← hsubject]
  exact hseen v hv

theorem Executes.blamed {s : Session} (h : Executes s fuel source ⟨n, code, m⟩)
    (hfine : ∀ p, Executes s fuel source p → Fine points seen p)
    (hseen : ∀ v, seen v → v.subject.Among S) (ht : t ∈ code.blamed) : S t := by
  cases code with
  | expr e => exact ((hfine _ h).among_expr hseen).blamed_expr ht
  | stmt s =>
    obtain ⟨_, _, _, -, -, -, -, v, hv, hsubject, -⟩ := (hfine _ h).placed
    have hs : Subject.Among S (.stmt s) := hsubject ▸ hseen v hv
    exact hs.blamed_stmt ht
  | apply f paren args =>
    obtain ⟨_, _, _, _, hcall⟩ := h.caller
    rw [List.mem_singleton.mp ht]
    exact ((hfine _ hcall).among_expr hseen).paren
  | _ => cases ht

namespace Session

theorem token_of_failed {s : Session} (h : History s points seen)
    (hseen : ∀ v, seen v → v.subject.Among S)
    (hs : ∀ t ∈ (Scanned.ofSource source).code, S t)
    (hfailed : (s.runWith fuel source).1 = .failed (.runtime fault t)) : S t := by
  obtain ⟨q, m, hq, hputs, -⟩ := origin_of_failed hfailed
  have hmore : ∀ v, seen v ∨ Visits s source v → v.subject.Among S := by
    rintro v (hv | hv)
    · exact hseen v hv
    · exact hv.among hs
  cases hputs with
  | blamed ht => exact hq.blamed (fun p hp => h.fine hp) hmore ht

theorem failed_of_accepted {s : Session} (ha : s.Accepts source)
    (hd : d ∈ (s.runWith fuel source).1.diagnostics) : (s.runWith fuel source).1 = .failed d := by
  rw [runWith_accepted ha] at hd ⊢
  cases hi : Treewalk.interpret fuel (s.parse source).1 (s.prepared source).machine with
  | ok =>
    rw [hi] at hd
    cases hd
  | error halt m =>
    rw [hi] at hd
    cases halt with
    | exhausted => cases hd
    | fault d' =>
      rw [List.mem_singleton.mp hd]
      rfl

/-- Diagnostics point at the text: the static ones are on a line of the unit, those of the grammar
and of resolution at a token of the unit, and those of a run at a token, but not at an end, of the
unit or of one before it. -/
theorem diagnostics_point_at_source (sink : Sink) (now : Float) (entries : List Entry) (fuel : Nat)
    (source : String) :
    ∀ d ∈ (((new sink now).play entries).runWith fuel source).1.diagnostics,
      (d.isStatic → ∃ line, d.line? = some line ∧ 1 ≤ line ∧
        line ≤ 1 + source.toList.count '\n') ∧
      (d.isSyntactic ∨ d.isResolution → ∃ t ∈ (Scanned.ofSource source).tokens,
        d.line? = some t.line ∧
        d.location = if t.kind = .eof then " at end" else " at '" ++ t.lexeme ++ "'") ∧
      ∀ fault t, d = .runtime fault t → t.kind ≠ .eof ∧
        ∃ unit ∈ source :: entries.filterMap Entry.source?, t ∈ (Scanned.ofSource unit).tokens := by
  intro d hd
  set s := (new sink now).play entries with hplay
  have hlines {t : Token} (ht : t ∈ (Scanned.ofSource source).tokens) :
      1 ≤ t.line ∧ t.line ≤ 1 + source.toList.count '\n' :=
    line_of_mem_scan (Scanned.mem_tokens.mp ht)
  by_cases hp : (s.parse source).2.1 = []
  · by_cases hr : ((s.parse source).2.2.resolve (s.parse source).1).1 = []
    -- the tokens of earlier units too, since what they declared may be called
    · obtain ⟨points, seen, hhistory, hseen⟩ := (History.new sink now).play
        (S := fun t => t.kind ≠ .eof ∧
          ∃ unit ∈ source :: entries.filterMap Entry.source?, t ∈ (Scanned.ofSource unit).tokens)
        (fun _ h => h.elim) entries fun unit hunit t ht =>
          ⟨Scanned.ne_eof_of_mem_code ht, unit, .tail _ hunit, Scanned.mem_tokens_of_mem_code ht⟩
      have hfailed := failed_of_accepted ⟨hp, hr⟩ hd
      have hruntime := raises_interpret _ _ _ _ _ (interpret_of_failed hfailed).2
      cases d with
      | lexical | syntactic | resolution => cases hruntime
      | output => exact ⟨nofun, nofun, fun _ _ h => by cases h⟩
      | runtime fault t =>
        refine ⟨nofun, nofun, ?_⟩
        rintro _ _ ⟨⟩
        exact token_of_failed hhistory hseen (fun t ht => ⟨Scanned.ne_eof_of_mem_code ht, source,
          .head _, Scanned.mem_tokens_of_mem_code ht⟩) hfailed
    · rw [runWith_unresolved hp hr] at hd
      obtain ⟨fault, t, ht, rfl⟩ := token_of_resolve hp hd
      have ht := Scanned.mem_tokens_of_mem_code ht
      exact ⟨fun _ => ⟨t.line, rfl, hlines ht⟩, fun _ => ⟨t, ht, rfl, rfl⟩,
        fun _ _ h => by cases h⟩
  · rw [runWith_malformed hp] at hd
    obtain hd | ⟨fault, t, ht, rfl⟩ := token_of_parse hd
    · obtain ⟨item, hmem, hitem⟩ := List.mem_filterMap.mp hd
      cases item with
      | token => cases hitem
      | fault fault line =>
        cases hitem
        exact ⟨fun _ => ⟨line, rfl, line_of_mem_scan hmem⟩, nofun, fun _ _ h => by cases h⟩
    · exact ⟨fun _ => ⟨t.line, rfl, hlines ht⟩, fun _ => ⟨t, ht, rfl, rfl⟩,
        fun _ _ h => by cases h⟩

theorem diagnostics_point_at_source_earlier :
    let entries := [.unit 9 "fun f(a) \x7b return -a; \x7d"]
    let s := (new .unlimited 0).play entries
    let d := Diagnostic.runtime .operandNotNumber ⟨.punct .minus, "-", 1⟩
    d ∈ (s.runWith 9 "f(nil);").1.diagnostics ∧
      (d.isStatic → ∃ line, d.line? = some line ∧ 1 ≤ line ∧
        line ≤ 1 + "f(nil);".toList.count '\n') ∧
      (d.isSyntactic ∨ d.isResolution → ∃ t ∈ (Scanned.ofSource "f(nil);").tokens,
        d.line? = some t.line ∧
        d.location = if t.kind = .eof then " at end" else " at '" ++ t.lexeme ++ "'") ∧
      ∀ fault t, d = .runtime fault t → t.kind ≠ .eof ∧
        ∃ unit ∈ "f(nil);" :: entries.filterMap Entry.source?,
          t ∈ (Scanned.ofSource unit).tokens := by
  intro entries s d
  have hd : d ∈ (s.runWith 9 "f(nil);").1.diagnostics := by decide +kernel
  exact ⟨hd, diagnostics_point_at_source .unlimited 0 entries 9 "f(nil);" d hd⟩

end Session

end Treewalk

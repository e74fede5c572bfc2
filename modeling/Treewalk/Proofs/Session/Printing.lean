import Treewalk.Proofs.Grammar.Extension
import Treewalk.Proofs.Running.Output
import Treewalk.Proofs.Running.Unbound
import Treewalk.Proofs.Scanning.Words
import Treewalk.Proofs.Session.Provenance

namespace Treewalk

open Run Cut

theorem scan_print (source : String) :
    scan ("print " ++ source) = .token ⟨.keyword .printKw, "print", 1⟩ :: scan source := by
  have hword : scanFrom 1 ("print".toList ++ ' ' :: source.toList) =
      .token ⟨wordKind "print".toList, String.ofList "print".toList, 1⟩ ::
        scanFrom 1 (' ' :: source.toList) := scanFrom_word (by decide) rfl
  have hblank : scanFrom 1 (' ' :: source.toList) = scanFrom 1 source.toList := by
    rw [scanFrom]
    rfl
  change scanFrom 1 _ = _
  rw [String.toList_append, show "print ".toList = "print".toList ++ [' '] from rfl,
    List.append_assoc, List.singleton_append, hword, hblank]
  rfl

namespace Scanned

variable {source : String}

theorem code_print (h : (ofSource source).faults = []) :
    ∃ line, (ofSource ("print " ++ source ++ "\n;")).code =
        ⟨.keyword .printKw, "print", 1⟩ :: (ofSource source).code ++
          [⟨.punct .semicolon, ";", line⟩] ∧
      (ofSource ("print " ++ source ++ "\n;")).faults = [] := by
  have hfaults : (ofSource ("print " ++ source)).faults = [] := by
    change (scan _).filterMap _ = []
    rw [scan_print]
    exact h
  have hcode : (ofSource ("print " ++ source)).code =
      ⟨.keyword .printKw, "print", 1⟩ :: (ofSource source).code := by
    change ((scan _).filterMap _).takeWhile _ = _
    rw [scan_print]
    rfl
  obtain ⟨line, -, hmore⟩ := scan_newline hfaults
  have hscan := hmore ";"
  rw [hcode] at hscan
  have hend : scanFrom (line + 1) ";".toList =
      [.token ⟨.punct .semicolon, ";", line + 1⟩, .token ⟨.eof, "", line + 1⟩] := by
    have hcut : first ';' [] = ⟨.token (.punct .semicolon), [';'], []⟩ := rfl
    rw [show ";".toList = [';'] from rfl, scanFrom, hcut, scanFrom]
    rfl
  rw [hend] at hscan
  have hkind : ∀ t ∈ (⟨.keyword .printKw, "print", 1⟩ : Token) :: (ofSource source).code,
      t.kind ≠ .eof :=
    List.forall_mem_cons.mpr ⟨by decide, fun t ht => ne_eof_of_mem_code ht⟩
  have hsemicolon : "\n;" = "\n" ++ ";" := by decide
  rw [hsemicolon, ← String.append_assoc]
  exact ⟨line + 1, code_ofSource hkind hscan, faults_ofSource hscan⟩

end Scanned

def Token.IsPlain (t : Token) : Prop :=
  t.lexeme ≠ Keyword.thisKw.spelling ∧ t.lexeme ≠ Keyword.superKw.spelling
  deriving Decidable

theorem Token.isPlain_of_mem {t : Token} (h : t ∈ (Scanned.ofSource source).tokens)
    (hk : t.kind ≠ .keyword .thisKw ∧ t.kind ≠ .keyword .superKw) : t.IsPlain :=
  ⟨fun hl => hk.1 (kind_of_lexeme (Scanned.mem_tokens.mp h) hl),
    fun hl => hk.2 (kind_of_lexeme (Scanned.mem_tokens.mp h) hl)⟩

section Resolving

variable {D : Distances} {P : Pairing} {marks : List Bool}

mutual

theorem Expr.resolve_global : (e : Expr) → e.Alike (.among Token.IsPlain) P marks e → e.Proper →
    e.resolve .outside ⟨[], D, []⟩ = ⟨[], D, []⟩
  | .literal _, _, _ | .name _, _, _ => rfl
  | .group e, .group he, hp => Expr.resolve_global e he hp
  | .unary _ e, .unary _ he, hp => Expr.resolve_global e he hp
  | .get e _, .get he _, hp => Expr.resolve_global e he hp
  | .binary l _ r, .binary hl _ hr, hp => by
    rw [Expr.resolve, Expr.resolve_global l hl hp.1, Expr.resolve_global r hr hp.2]
  | .logical l _ r, .logical hl _ hr, hp => by
    rw [Expr.resolve, Expr.resolve_global l hl hp.1, Expr.resolve_global r hr hp.2]
  | .set o _ e, .set ho _ he, hp => by
    rw [Expr.resolve, Expr.resolve_global e he hp.2, Expr.resolve_global o ho hp.1]
  | .assign _ e, .assign _ he, hp => by
    rw [Expr.resolve, Expr.resolve_global e he hp.2]
    rfl
  | .call callee _ args, .call hc _ ha, hp => by
    rw [Expr.resolve, Expr.resolve_global callee hc hp.1, Expr.resolveAll_global args ha hp.2]
  | .receiver _, .receiver ho, hp => absurd hp ho.among.1
  | .inherited _ _, .inherited _ ht _, hp => absurd hp ht.2.2

theorem Expr.resolveAll_global : (es : List Expr) →
    Expr.AlikeAll (.among Token.IsPlain) P marks es es → Expr.ProperAll es →
    Expr.resolveAll .outside es ⟨[], D, []⟩ = ⟨[], D, []⟩
  | [], _, _ => rfl
  | e :: es, .cons he hes, hp => by
    rw [Expr.resolveAll, Expr.resolve_global e he hp.1, Expr.resolveAll_global es hes hp.2]

end

end Resolving

namespace Sink

variable {sink sink' : Sink} {text reason : String}

theorem textFrom_of_taken (h : sink.offer text = (none, sink')) :
    sink'.textFrom 0 = sink.textFrom 0 ++ text := by
  unfold offer at h
  split at h
  · next he =>
    cases h
    rw [String.isEmpty_iff.mp he, String.append_empty]
  · split at h <;> cases h
    exact textFrom_push sink text _ _

theorem textFrom_of_refused (h : sink.offer text = (some reason, sink')) :
    ∃ taken rest, text = taken ++ rest ∧ sink'.textFrom 0 = sink.textFrom 0 ++ taken := by
  unfold offer at h
  split at h
  · cases h
  · split at h <;> cases h
    next refusal _ =>
      obtain ⟨rest, htext⟩ := refusal.front_append text
      exact ⟨refusal.front text, rest, htext, textFrom_push sink _ _ _⟩

theorem offerAll_cons_of_taken (h : sink.offer text = (none, sink')) (texts : List String) :
    sink.offerAll (text :: texts) = sink'.offerAll texts := by
  rw [offerAll, h]

theorem offerAll_cases (sink : Sink) (texts : List String) :
    (∃ sink', sink.offerAll texts = (none, sink') ∧
      sink'.textFrom 0 = sink.textFrom 0 ++ String.join texts) ∨
    ∃ front text back sink₁ reason sink' taken rest, texts = front ++ text :: back ∧
      sink.offerAll texts = (some reason, sink') ∧ sink.offerAll front = (none, sink₁) ∧
      sink₁.offer text = (some reason, sink') ∧ text = taken ++ rest ∧
      sink'.textFrom 0 = sink.textFrom 0 ++ String.join front ++ taken := by
  induction texts generalizing sink with
  | nil => exact .inl ⟨sink, rfl, by simp⟩
  | cons text texts ih =>
    cases ho : sink.offer text with
    | mk refused sink₁ =>
      cases refused with
      | some reason =>
        obtain ⟨taken, rest, hpart, htext⟩ := textFrom_of_refused ho
        refine .inr ⟨[], text, texts, sink, reason, sink₁, taken, rest, rfl, by rw [offerAll, ho],
          rfl, ho, hpart, ?_⟩
        rw [htext, String.join_nil, String.append_empty]
      | none =>
        have hall := offerAll_cons_of_taken ho
        have hjoin (texts : List String) : sink.textFrom 0 ++ String.join (text :: texts) =
            sink₁.textFrom 0 ++ String.join texts := by
          rw [textFrom_of_taken ho, String.join_cons, String.append_assoc]
        obtain ⟨sink', h, htext⟩ |
          ⟨front, text', back, sink₂, reason, sink', taken, rest, rfl, h, hfront, hrefused, hpart,
            htext⟩ := ih sink₁
        · exact .inl ⟨sink', (hall _).trans h, htext.trans (hjoin texts).symm⟩
        · refine .inr ⟨text :: front, text', back, sink₂, reason, sink', taken, rest, rfl,
            (hall _).trans h, (hall _).trans hfront, hrefused, hpart, ?_⟩
          rw [htext, hjoin front]

end Sink

/-- How a unit ends that prints what is evaluated, and what it leaves behind, given what evaluation
ends with and leaves behind. -/
inductive Prints (m : Machine) : Machine → Except Halt Value → Outcome → Prop
  | taken {sink : Sink} : m.sink.offerAll (m.heap.line v) = (none, sink) →
      sink.textFrom 0 = m.sink.textFrom 0 ++ m.heap.display v ++ "\n" →
      Prints m { m with sink } (.ok v) .success
  /-- The texts in front of the first that is refused are printed, and of that one what the sink has
  taken; nothing behind it is offered any more. -/
  | refused {front back : List String} {text reason taken rest : String} {sink sink' : Sink} :
      m.heap.line v = front ++ text :: back →
      m.sink.offerAll front = (none, sink) → sink.offer text = (some reason, sink') →
      text = taken ++ rest →
      sink'.textFrom 0 = m.sink.textFrom 0 ++ String.join front ++ taken →
      Prints m { m with sink := sink' } (.ok v) (.failed (.output reason))
  | fault : Prints m m (.error (.fault d)) (.failed d)
  | exhausted : Prints m m (.error .exhausted) .unfinished

theorem join_line (h : Heap) (v : Value) : String.join (h.line v) = h.display v ++ "\n" := by
  rw [Heap.line, String.join_append, Heap.join_pieces]
  rfl

theorem prints_print (v : Value) (m : Machine) :
    Prints m (after m (print v)) (.ok v) (.ofResult (print v m)) := by
  have hprint : print v m = writeAll (m.heap.line v) m := rfl
  rw [after, hprint, writeAll_eq]
  obtain ⟨sink, h, htext⟩ |
    ⟨_, _, _, _, reason, sink, _, _, hline, h, hfront, hrefused, hpart, htext⟩ :=
    m.sink.offerAll_cases (m.heap.line v)
  · rw [h]
    rw [join_line, ← String.append_assoc] at htext
    exact .taken h htext
  · rw [h]
    exact .refused hline hfront hrefused hpart htext

theorem prints_interpret {e : Expr} {m m₁ : Machine} (h : evaluate fuel e m = .ok v m₁) :
    Prints m₁ (after m (interpret (fuel + 1) [.print e])) (.ok v)
      (.ofResult (interpret (fuel + 1) [.print e] m)) := by
  have hprints := prints_print v m₁
  cases hp : print v m₁ with
  | ok _ m₂ =>
    have hexecute : execute (fuel + 1) (.print e) m = .ok .normal m₂ :=
      (bind_of_ok h).trans (bind_of_ok hp)
    have hinterpret : interpret (fuel + 1) [.print e] m = .ok () m₂ := bind_of_ok hexecute
    rw [hp, after_of_ok hp] at hprints
    rw [hinterpret, after_of_ok hinterpret]
    exact hprints
  | error halt m₂ =>
    have hexecute : execute (fuel + 1) (.print e) m = .error halt m₂ :=
      (bind_of_ok h).trans (bind_of_error hp)
    have hinterpret : interpret (fuel + 1) [.print e] m = .error halt m₂ := bind_of_error hexecute
    rw [hp, after_of_error hp] at hprints
    rw [hinterpret, after_of_error hinterpret]
    exact hprints

theorem interpret_print_error {e : Expr} {m m₁ : Machine} (h : evaluate fuel e m = .error halt m₁) :
    interpret (fuel + 1) [.print e] m = .error halt m₁ := by
  have hexecute : execute (fuel + 1) (.print e) m = .error halt m₁ := bind_of_error h
  exact bind_of_error hexecute

namespace Session

variable {s : Session} {source : String}

theorem reads_renumbered {D : Distances} {tokens : List Token} {e : Expr} {c : Cursor} {n n' : Nat}
    (hn : ∀ i, n ≤ i → D[i]? = none) (hn' : ∀ i, n' ≤ i → D[i]? = none)
    (h : (Cursor.ofTokens tokens n).expression = (some e, c)) (hf : c.faults = []) :
    ∃ e' n₁, e.Alike .exact (.unbound D) [] e' ∧
      Grammar.ReadsExpr .assignment (tokens.takeWhile (·.kind ≠ .eof)) n' e' [] n₁ := by
  -- the table knows neither number, so that a name is looked up among the globals under both
  have hc : (Cursor.ofTokens tokens n).Alike .exact (.unbound D) (Cursor.ofTokens tokens n') :=
    ⟨List.forall₂_same.mpr fun _ _ => rfl, rfl, .nil, fun k => ⟨none, hn _ (Nat.le_add_right _ _),
      hn' _ (Nat.le_add_right _ _)⟩⟩
  obtain ⟨hrel, hfaults⟩ := Cursor.alike_expression Wording.IsPlain.exact.toKeepsNames hc
  cases hexpr : (Cursor.ofTokens tokens n').expression with
  | mk e? c' =>
    rw [h, hexpr] at hrel hfaults
    cases hrel with
    | @some _ e' he =>
      have hf' : c'.faults = [] := (nil_iff_of_forall₂ hfaults.faults).mp hf
      exact ⟨e', _, he [], Grammar.readsExpr_expression (Cursor.eof_kind_ofTokens _ _) hexpr hf'⟩

theorem accepts_print {e : Expr} {n₁ : Nat} (hf : (Scanned.ofSource source).faults = [])
    (hplain : ∀ t ∈ (Scanned.ofSource source).tokens,
      t.kind ≠ .keyword .thisKw ∧ t.kind ≠ .keyword .superKw)
    (h : Grammar.ReadsExpr .assignment (Scanned.ofSource source).code s.nextId e [] n₁) :
    s.Accepts ("print " ++ source ++ "\n;") ∧
      (s.parse ("print " ++ source ++ "\n;")).1 = [.print e] ∧
      (s.prepared ("print " ++ source ++ "\n;")).machine = s.machine := by
  obtain ⟨line, hcode, hfaults⟩ := Scanned.code_print hf
  have hreads : Grammar.ReadsDecls (Scanned.ofSource ("print " ++ source ++ "\n;")).code s.nextId
      [.print e] [] n₁ := by
    rw [hcode]
    exact .cons (.statement (.print rfl (h.extend _) rfl)) .nil
  obtain ⟨hparse, hparsed⟩ := parse_of_reads hfaults hreads
  have hamong : Stmt.AlikeAll (.among Token.IsPlain) (.shift 0 0) []
      (s.parse ("print " ++ source ++ "\n;")).1 (s.parse ("print " ++ source ++ "\n;")).1 := by
    apply among_parse hparsed
    rw [hcode, List.forall_mem_append, List.forall_mem_cons, List.forall_mem_singleton]
    have hsemicolon : ";" ≠ Keyword.thisKw.spelling ∧ ";" ≠ Keyword.superKw.spelling := by decide
    refine ⟨⟨by decide, fun t ht => ?_⟩, hsemicolon⟩
    exact Token.isPlain_of_mem (Scanned.mem_tokens_of_mem_code ht)
      (hplain t (Scanned.mem_tokens_of_mem_code ht))
  obtain ⟨-, hproper, -⟩ := formed_parse hparsed
  rw [hparse] at hamong hproper
  -- at global level only `this` and `super` are a matter of resolution
  have hresolve : Treewalk.resolve (s.parse ("print " ++ source ++ "\n;")).1
      s.machine.distances = ⟨[], s.machine.distances, []⟩ := by
    rw [hparse]
    cases hamong with
    | cons hs _ =>
      cases hs with
      | print he => exact Expr.resolve_global e he hproper.1
  refine ⟨⟨hparsed, congrArg Resolution.faults hresolve⟩, hparse, ?_⟩
  have hprepared : (s.prepared ("print " ++ source ++ "\n;")).machine = { s.machine with
      distances := (Treewalk.resolve (s.parse ("print " ++ source ++ "\n;")).1
        s.machine.distances).distances } := rfl
  rw [hprepared, hresolve]

/-- Printing an expression in a unit of its own is evaluating it as it is, under any numbers that
are free, and offering the line of its value to the sink text by text. The unit has no static fault.
It succeeds if evaluation yields a value and the sink takes all of its line, and fails with what the
sink reports or with the fault of evaluation if not. The machines are the same afterwards, but for
what the sink was offered of the line. -/
theorem print_evaluates (sink : Sink) (now : Float) (entries : List Entry) (source : String)
    (n fuel : Nat) (e : Expr) (c : Cursor)
    (hlexical : (Scanned.ofSource source).faults = [])
    (hfree : ((new sink now).play entries).nextId ≤ n)
    (hexpr : (Cursor.ofTokens (Scanned.ofSource source).tokens n).expression = (some e, c))
    (hsyntactic : c.faults = [])
    (hplain : ∀ t ∈ (Scanned.ofSource source).tokens,
      t.kind ≠ .keyword .thisKw ∧ t.kind ≠ .keyword .superKw) :
    let s := (new sink now).play entries
    let unit := "print " ++ source ++ "\n;"
    s.Accepts unit ∧ Prints (s.evaluate fuel e).2.machine (s.runWith (fuel + 1) unit).2.machine
      (s.evaluate fuel e).1 (s.runWith (fuel + 1) unit).1 := by
  intro s unit
  obtain ⟨_, _, hhistory, -⟩ := (History.new sink now).play (S := fun _ => True)
    (fun _ h => h.elim) entries fun _ _ _ _ => trivial
  have hunused := hhistory.settled.unused
  obtain ⟨e', n₁, halike, hreads⟩ := reads_renumbered (D := s.machine.distances)
    (fun i hi => hunused i (Nat.le_trans hfree hi)) hunused hexpr hsyntactic
  obtain ⟨haccepts, hparse, hmachine⟩ := accepts_print hlexical hplain hreads
  have heval := halike.evaluate fuel s.machine rfl
  refine ⟨haccepts, ?_⟩
  rw [runWith_accepted haccepts, hparse, hmachine]
  unfold Session.evaluate
  cases he : Treewalk.evaluate fuel e s.machine with
  | ok v m₁ => exact prints_interpret (heval ▸ he)
  | error halt m₁ =>
    have hinterpret := interpret_print_error (heval ▸ he)
    rw [hinterpret, after_of_error hinterpret]
    cases halt with
    | fault d => exact .fault
    | exhausted => exact .exhausted

theorem print_evaluates_variable :
    (Scanned.ofSource "a").faults = [] ∧
    ((new .unlimited 0).play [.unit 9 "var a = true;"]).nextId ≤ 5 ∧
    (Cursor.ofTokens (Scanned.ofSource "a").tokens 5).expression =
      (some (.name ⟨5, ⟨.identifier, "a", 1⟩⟩), ⟨[], ⟨.eof, "", 1⟩, 6, []⟩) ∧
    (∀ t ∈ (Scanned.ofSource "a").tokens,
      t.kind ≠ .keyword .thisKw ∧ t.kind ≠ .keyword .superKw) ∧
    let s := (new .unlimited 0).play [.unit 9 "var a = true;"]
    let e : Expr := .name ⟨5, ⟨.identifier, "a", 1⟩⟩
    let unit := "print " ++ "a" ++ "\n;"
    s.Accepts unit ∧ Prints (s.evaluate 3 e).2.machine (s.runWith 4 unit).2.machine
      (s.evaluate 3 e).1 (s.runWith 4 unit).1 := by
  have hlexical : (Scanned.ofSource "a").faults = [] := by decide +kernel
  have hfree : ((new .unlimited 0).play [.unit 9 "var a = true;"]).nextId ≤ 5 := by decide +kernel
  have hexpr : (Cursor.ofTokens (Scanned.ofSource "a").tokens 5).expression =
      (some (.name ⟨5, ⟨.identifier, "a", 1⟩⟩), ⟨[], ⟨.eof, "", 1⟩, 6, []⟩) := by cbv
  have hplain : ∀ t ∈ (Scanned.ofSource "a").tokens,
      t.kind ≠ .keyword .thisKw ∧ t.kind ≠ .keyword .superKw := by decide +kernel
  exact ⟨hlexical, hfree, hexpr, hplain,
    print_evaluates .unlimited 0 _ "a" 5 3 _ _ hlexical hfree hexpr rfl hplain⟩

theorem print_refused :
    (Scanned.ofSource "nil").faults = [] ∧
    (Cursor.ofTokens (Scanned.ofSource "nil").tokens 0).expression =
      (some (.literal .nil), ⟨[], ⟨.eof, "", 1⟩, 0, []⟩) ∧
    (∀ t ∈ (Scanned.ofSource "nil").tokens,
      t.kind ≠ .keyword .thisKw ∧ t.kind ≠ .keyword .superKw) ∧
    let s := new (.limited 0 "sink closed") 0
    ((s.run ("print " ++ "nil" ++ "\n;")).1.diagnostics = [.output "sink closed"] ∧
      ¬ ((s.run ("print " ++ "nil" ++ "\n;")).1.isSuccess ↔
        ∃ v, (s.evaluate ampleFuel (.literal .nil)).1 = .ok v)) := by
  refine ⟨by decide +kernel, by cbv, by decide +kernel, by decide +kernel, fun h => ?_⟩
  have hfails : ((new (.limited 0 "sink closed") 0).run
      ("print " ++ "nil" ++ "\n;")).1.isSuccess = false := by decide +kernel
  rw [hfails] at h
  exact Bool.false_ne_true (h.mpr ⟨.nil, rfl⟩)

end Session

end Treewalk

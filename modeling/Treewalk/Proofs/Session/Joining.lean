import Treewalk.Proofs.Grammar.Extension
import Treewalk.Proofs.SideBySide.Session

namespace Treewalk

open Run

def Wording.lineless : Wording :=
  plain (fun t t' => t'.kind = t.kind ∧ t'.lexeme = t.lexeme) And.left And.right

theorem Wording.IsPlain.lineless : Wording.lineless.IsPlain :=
  ⟨⟨fun _ => trivial, fun _ _ => rfl⟩, fun _ => ⟨rfl, rfl⟩⟩

def Token.eraseLine (t : Token) : Token := { t with line := 0 }

def Diagnostic.eraseLine : Diagnostic → Diagnostic
  | .lexical fault _ => .lexical fault 0
  | .syntactic fault t => .syntactic fault t.eraseLine
  | .resolution fault t => .resolution fault t.eraseLine
  | .runtime fault t => .runtime fault t.eraseLine
  | .output reason => .output reason

def Outcome.eraseLines : Outcome → Outcome
  | .success => .success
  | .malformed faults => .malformed (faults.map Diagnostic.eraseLine)
  | .unresolved faults => .unresolved (faults.map Diagnostic.eraseLine)
  | .failed fault => .failed fault.eraseLine
  | .unfinished => .unfinished

namespace Wording

theorem eraseLine_of_same (h : lineless.Same t t') : t'.eraseLine = t.eraseLine := by
  obtain ⟨hk, hl⟩ := h
  simp only [Token.eraseLine, hk, hl]

theorem eraseLine_of_nearFault (h : lineless.NearFault d d') : d'.eraseLine = d.eraseLine := by
  cases h with
  | runtime ht =>
    obtain ⟨_, ht⟩ := ht
    rw [Diagnostic.eraseLine, eraseLine_of_same ht]
    rfl
  | undefined ht =>
    obtain ⟨_, ht⟩ := ht
    rw [undefined, undefined, Diagnostic.eraseLine, eraseLine_of_same ht, lineless.lexeme_eq ht]
    rfl
  | output => rfl

theorem eraseLine_of_sameFault (h : lineless.SameFault d d') : d'.eraseLine = d.eraseLine := by
  cases h with
  | syntactic ht => rw [Diagnostic.eraseLine, eraseLine_of_same ht, Diagnostic.eraseLine]

theorem eraseLine_of_sameReport (h : lineless.SameReport d d') : d'.eraseLine = d.eraseLine := by
  cases h with
  | resolution ht => rw [Diagnostic.eraseLine, eraseLine_of_same ht, Diagnostic.eraseLine]

theorem map_eraseLine_of_forall₂ {R : Diagnostic → Diagnostic → Prop}
    (hR : ∀ {d d'}, R d d' → d'.eraseLine = d.eraseLine) (h : List.Forall₂ R ds ds') :
    ds'.map Diagnostic.eraseLine = ds.map Diagnostic.eraseLine := by
  induction h with
  | nil => rfl
  | cons hd _ ih => rw [List.map_cons, List.map_cons, hR hd, ih]

theorem eraseLines_of_sameOutcome (h : lineless.SameOutcome o o') :
    o'.eraseLines = o.eraseLines := by
  cases h with
  | success | unfinished => rfl
  | malformed lexical hds =>
    simp only [Outcome.eraseLines, List.map_append,
      map_eraseLine_of_forall₂ eraseLine_of_sameFault hds]
  | unresolved hds =>
    simp only [Outcome.eraseLines, map_eraseLine_of_forall₂ eraseLine_of_sameReport hds]
  | failed hd => simp only [Outcome.eraseLines, eraseLine_of_nearFault hd]

end Wording

theorem Outcome.eq_success {o : Outcome} (h : o.isSuccess) : o = .success := by
  cases o <;> first | rfl | cases h

namespace Scanned

theorem forall₂_takeWhile {ts ts' : List Token}
    (h : List.Forall₂ Wording.lineless.Same ts ts') :
    List.Forall₂ Wording.lineless.Same (ts.takeWhile (·.kind ≠ .eof))
      (ts'.takeWhile (·.kind ≠ .eof)) := by
  induction h with
  | nil => exact .nil
  | @cons t t' _ _ ht _ ih =>
    rw [List.takeWhile_cons, List.takeWhile_cons, ht.1]
    split
    · exact .cons ht ih
    · exact .nil

theorem forall₂_items {items items' : List Item} (h : List.Forall₂ Item.SameButLine items items') :
    List.Forall₂ Wording.lineless.Same (items.filterMap Item.token?)
        (items'.filterMap Item.token?) ∧
      (items.filterMap Item.diagnostic? = [] → items'.filterMap Item.diagnostic? = []) := by
  induction h with
  | nil => exact ⟨.nil, id⟩
  | cons hi _ ih =>
    cases hi with
    | token hk hl => exact ⟨.cons ⟨hk, hl⟩ ih.1, ih.2⟩
    | fault => exact ⟨ih.1, nofun⟩

theorem ofSource_newline {a b : String} (ha : (ofSource a).faults = [])
    (hb : (ofSource b).faults = []) :
    (ofSource (a ++ "\n" ++ b)).faults = [] ∧
      ∃ more, (ofSource (a ++ "\n" ++ b)).code = (ofSource a).code ++ more ∧
        List.Forall₂ Wording.lineless.Same (ofSource b).code more := by
  obtain ⟨line, -, hmore⟩ := scan_newline ha
  rw [Nat.add_comm] at hmore
  obtain ⟨htokens, hfaults⟩ := forall₂_items (scanFrom_lines 1 line b.toList)
  refine ⟨(faults_ofSource (hmore b)).trans (hfaults hb), _,
    code_ofSource (fun _ => ne_eof_of_mem_code) (hmore b), forall₂_takeWhile htokens⟩

end Scanned

theorem Stmt.AlikeAll.split {w : Wording} {P : Pairing} {ss ts us : List Stmt}
    (h : Stmt.AlikeAll w P marks (ss ++ ts) us) :
    ∃ ss' ts', us = ss' ++ ts' ∧ Stmt.AlikeAll w P marks ss ss' ∧
      Stmt.AlikeAll w P marks ts ts' := by
  induction ss generalizing us with
  | nil => exact ⟨[], us, rfl, .nil, h⟩
  | cons s ss ih =>
    cases h with
    | cons hs hss =>
      obtain ⟨ss', ts', rfl, hss, hts⟩ := ih hss
      exact ⟨_ :: ss', ts', rfl, .cons hs hss, hts⟩

theorem Stmt.resolveAll_append (ctx : Context) (ss ts : List Stmt) (r : Resolution) :
    Stmt.resolveAll ctx (ss ++ ts) r = Stmt.resolveAll ctx ts (Stmt.resolveAll ctx ss r) := by
  induction ss generalizing r with
  | nil => rfl
  | cons s ss ih => exact ih _

theorem Stmt.scopes_resolveAll_nil (ctx : Context) {ss : List Stmt} (hp : Stmt.ProperAll ss)
    {r : Resolution} (hr : r.scopes = []) : (Stmt.resolveAll ctx ss r).scopes = [] := by
  induction ss generalizing r with
  | nil => exact hr
  | cons s ss ih =>
    refine ih hp.2 ?_
    rw [s.scopes_resolve ctx hp.1, hr, s.scopesAfter_nil]

theorem resolve_append {ss ts : List Stmt} {D : Distances} (hp : Stmt.ProperAll ss)
    (hf : (resolve ss D).faults = []) :
    resolve (ss ++ ts) D = resolve ts (resolve ss D).distances := by
  rw [resolve, Stmt.resolveAll_append]
  have hs : (resolve ss D).scopes = [] := Stmt.scopes_resolveAll_nil _ hp rfl
  change Stmt.resolveAll _ ts (resolve ss D) =
    Stmt.resolveAll _ ts ⟨[], (resolve ss D).distances, []⟩
  rw [← hs, ← hf]

theorem interpret_append (fuel : Nat) (ss ts : List Stmt) (m : Machine) :
    interpret fuel (ss ++ ts) m = (interpret fuel ss >>= fun _ => interpret fuel ts) m := by
  induction ss generalizing m with
  | nil => rfl
  | cons s ss ih =>
    simp only [List.cons_append, interpret, Bind.bind, EStateM.bind]
    cases execute fuel s m with
    | ok c m₁ => exact ih m₁
    | error halt m₁ => rfl

def Pairing.grow (P : Pairing) (D : Distances) (first next : Nat) : Pairing :=
  fun i i' d => P i i' d ∨ i' = i ∧ (first ≤ i ∧ i < next) ∧ D[i]? = d

theorem agrees_joined {w : Wording} {P Q₁ Q₂ : Pairing} {μ : Array Bool} {m m' m₁ : Machine}
    {D₁ D₂ D' : Distances} (hm : m.Alike w P μ m') (hc : Marked μ (m.heap.chain m.current) [])
    (hPQ : ∀ i i' d, P i i' d → Q₁ i i' d) (hQ : ∀ i i' d, Q₁ i i' d → Q₂ i i' d)
    (hD₁ : ∀ i i' d, Q₁ i i' d → D₁[i]? = d ∧ D'[i']? = d)
    (hD₂ : ∀ i i' d, Q₂ i i' d → D₂[i]? = d ∧ D'[i']? = d)
    (hss : Stmt.AlikeAll w Q₁ [] ss ss') (hts : Stmt.AlikeAll w Q₂ [] ts ts')
    (hok : interpret fuel ss { m with distances := D₁ } = .ok () m₁) :
    ∃ μ₁ m₁', Agrees w Q₂ μ₁ { m₁ with distances := D₂ } m₁' same
      (interpret fuel ts { m₁ with distances := D₂ })
      (interpret fuel (ss' ++ ts') { m' with distances := D' }) := by
  have hfirst := agrees_interpret fuel hss (hm.settle hPQ hD₁) hc
  rw [interpret_append]
  simp only [Bind.bind, EStateM.bind]
  rw [hok] at hfirst
  generalize interpret fuel ss' { m' with distances := D' } = r at hfirst ⊢
  cases hfirst with
  | @ok _ _ μ₁ _ m₁' _ hr =>
    have hD' : { m₁' with distances := D' } = m₁' := by
      rw [show D' = m₁'.distances from hr.distances'.symm]
    have halike := hr.alike.settle hQ hD₂
    rw [hD'] at halike
    exact ⟨μ₁, m₁', agrees_interpret fuel hts halike (hr.marked hc)⟩

namespace Session

variable {s : Session} {a b : String}

theorem parse_newline {P : Pairing} (ha : (s.parse a).2.1 = [])
    (hb : ((s.parse a).2.2.parse b).2.1 = []) (hP : ∀ k, ∃ d, P (s.nextId + k) (s.nextId + k) d) :
    (s.parse (a ++ "\n" ++ b)).2.1 = [] ∧
      Stmt.AlikeAll .lineless P [] ((s.parse a).1 ++ ((s.parse a).2.2.parse b).1)
        (s.parse (a ++ "\n" ++ b)).1 := by
  obtain ⟨hlex, more, hcode, hmore⟩ := Scanned.ofSource_newline
    (List.append_eq_nil_iff.mp ha).1 (List.append_eq_nil_iff.mp hb).1
  have hreads := (reads_parse ha).append (reads_parse hb)
  let joined := Cursor.ofTokens (Scanned.ofSource (a ++ "\n" ++ b)).tokens s.nextId
  let c : Cursor :=
    ⟨(Scanned.ofSource a).code ++ (Scanned.ofSource b).code, joined.eof, s.nextId, []⟩
  obtain ⟨hf, hs, -⟩ := (Grammar.readsDecls_iff_program (c := c)
    (Cursor.eof_kind_ofTokens _ s.nextId)).mp hreads
  have hc : c.Alike .lineless P joined := by
    refine ⟨?_, ⟨rfl, rfl⟩, .nil, hP⟩
    change List.Forall₂ _ _ (Scanned.ofSource (a ++ "\n" ++ b)).code
    rw [hcode]
    exact List.rel_append (List.forall₂_same.mpr fun _ _ => ⟨rfl, rfl⟩) hmore
  obtain ⟨hss, hd⟩ := Cursor.alike_program Wording.IsPlain.lineless.toKeepsNames hc
  rw [hs] at hss
  refine ⟨List.append_eq_nil_iff.mpr ⟨hlex, ?_⟩, hss []⟩
  exact (nil_iff_of_forall₂ hd.faults).mp hf

theorem prepared_newline (hu : ∀ i, s.nextId ≤ i → s.machine.distances[i]? = none)
    (ha : s.Accepts a) (hb : (s.prepared a).Accepts b) :
    s.Accepts (a ++ "\n" ++ b) ∧ ∀ i : Nat, (s.prepared (a ++ "\n" ++ b)).machine.distances[i]? =
      ((s.prepared a).prepared b).machine.distances[i]? := by
  obtain ⟨hle, hproper, -⟩ := formed_parse ha.parsed
  obtain ⟨hp, hss⟩ := parse_newline (P := .shift s.nextId s.nextId) ha.parsed hb.parsed
    fun k => ⟨none, k, rfl, rfl⟩
  have hwhole : Treewalk.resolve ((s.parse a).1 ++ ((s.prepared a).parse b).1)
      s.machine.distances = Treewalk.resolve ((s.prepared a).parse b).1
        (s.prepared a).machine.distances := resolve_append hproper ha.resolved
  have halike : (Treewalk.resolve ((s.parse a).1 ++ ((s.prepared a).parse b).1)
      s.machine.distances).Alike .lineless s.nextId s.nextId
      (Treewalk.resolve (s.parse (a ++ "\n" ++ b)).1 s.machine.distances) :=
    hss.resolve Wording.IsPlain.lineless.toKeepsNames _ ⟨rfl, .nil, fun _ => rfl⟩
  rw [hwhole] at halike
  refine ⟨⟨hp, (nil_iff_of_forall₂ halike.faults).mp hb.resolved⟩, fun i => ?_⟩
  by_cases hi : s.nextId ≤ i
  · obtain ⟨k, rfl⟩ := Nat.exists_eq_add_of_le hi
    exact halike.distances k
  · have hlt := Nat.lt_of_not_le hi
    obtain ⟨hkeep, hfree⟩ := unused_prepared ha.parsed hu
    rw [(unused_prepared hp hu).1 i hlt, ← hkeep i hlt]
    exact ((unused_prepared hb.parsed hfree).1 i (Nat.lt_of_lt_of_le hlt hle)).symm

theorem runWith_success (ha : s.Accepts a) (hok : (s.runWith fuel a).1 = .success) :
    ∃ m₁, Treewalk.interpret fuel (s.parse a).1 (s.prepared a).machine = .ok () m₁ ∧
      (s.runWith fuel a).2 = { s.prepared a with machine := m₁ } := by
  rw [runWith_accepted ha] at hok ⊢
  unfold Run.after
  generalize Treewalk.interpret fuel (s.parse a).1 (s.prepared a).machine = r at hok ⊢
  cases r with
  | ok _ m₁ => exact ⟨m₁, rfl, rfl⟩
  | error halt m₁ => cases halt <;> cases hok

theorem Alike.distances_ok {P : Pairing} {μ : Array Bool} (h : s.Alike .lineless P μ s)
    (ha : s.Accepts a)
    (hm : Treewalk.interpret fuel (s.parse a).1 (s.prepared a).machine = .ok () m₁) :
    m₁.distances = (s.prepared a).machine.distances := by
  obtain ⟨-, Q, hp, hss⟩ := h.prepared .lineless ha.parsed ha.parsed
  have hagrees := agrees_interpret fuel hss hp.machine hp.home
  rw [hm] at hagrees
  cases hagrees with
  | ok _ hr => exact hr.distances

theorem Alike.distances_newline {P : Pairing} {μ : Array Bool} (h : s.Alike .lineless P μ s)
    (ha : s.Accepts a) (hb : (s.prepared a).Accepts b) :
    let D := ((s.prepared a).prepared b).machine.distances
    (∀ i i' d, P.grow D s.nextId (s.prepared a).nextId i i' d →
      (s.prepared a).machine.distances[i]? = d ∧
        (s.prepared (a ++ "\n" ++ b)).machine.distances[i']? = d) ∧
    ∀ i i' d, P.grow D s.nextId ((s.prepared a).parse b).2.2.nextId i i' d →
      D[i]? = d ∧ (s.prepared (a ++ "\n" ++ b)).machine.distances[i']? = d := by
  intro D
  obtain ⟨hle, -, -⟩ := formed_parse ha.parsed
  obtain ⟨hj, hD⟩ := prepared_newline h.unused ha hb
  obtain ⟨hkeep, hfree⟩ := unused_prepared ha.parsed h.unused
  obtain ⟨hkeep', -⟩ := unused_prepared hb.parsed hfree
  obtain ⟨hkeepj, -⟩ := unused_prepared hj.parsed h.unused
  have hold (i i' : Nat) (d : Option Nat) (hp : P i i' d) : D[i]? = d ∧
      (s.prepared a).machine.distances[i]? = d ∧
      (s.prepared (a ++ "\n" ++ b)).machine.distances[i']? = d := by
    obtain ⟨hi, hi'⟩ := h.used i i' d hp
    obtain ⟨hd, hd'⟩ := h.machine.distances i i' d hp
    have hda := (hkeep i hi).trans hd
    exact ⟨(hkeep' i (Nat.lt_of_lt_of_le hi hle)).trans hda, hda, (hkeepj i' hi').trans hd'⟩
  refine ⟨fun i i' d hp => ?_, fun i i' d hp => ?_⟩
  · obtain hp | ⟨rfl, ⟨-, hi⟩, hd⟩ := hp
    · exact (hold i i' d hp).2
    · exact ⟨(hkeep' _ hi).symm.trans hd, (hD _).trans hd⟩
  · obtain hp | ⟨rfl, -, hd⟩ := hp
    · exact ⟨(hold i i' d hp).1, (hold i i' d hp).2.2⟩
    · exact ⟨hd, (hD _).trans hd⟩

theorem Alike.newline {P : Pairing} {μ : Array Bool} (h : s.Alike .lineless P μ s)
    (ha : s.Accepts a) (hok : (s.runWith fuel a).1 = .success)
    (hb : (s.runWith fuel a).2.Accepts b) :
    s.Accepts (a ++ "\n" ++ b) ∧
      Wording.lineless.SameOutcome ((s.runWith fuel a).2.runWith fuel b).1
        (s.runWith fuel (a ++ "\n" ++ b)).1 ∧
      (s.runWith fuel (a ++ "\n" ++ b)).2.machine.sink =
        ((s.runWith fuel a).2.runWith fuel b).2.machine.sink := by
  obtain ⟨m₁, hm₁, hs₁⟩ := runWith_success ha hok
  have hD₁ := h.distances_ok ha hm₁
  rw [hs₁] at hb ⊢
  obtain ⟨heap, natives, globals, current, distances, sink⟩ := m₁
  subst hD₁
  have hb' : (s.prepared a).Accepts b := ⟨hb.parsed, hb.resolved⟩
  obtain ⟨hle, -, hnum⟩ := formed_parse ha.parsed
  obtain ⟨hle', -, hnum'⟩ := formed_parse hb'.parsed
  obtain ⟨hj, -⟩ := prepared_newline h.unused ha hb'
  obtain ⟨hfirst, hboth⟩ := h.distances_newline ha hb'
  let D := ((s.prepared a).prepared b).machine.distances
  obtain ⟨-, hss⟩ := parse_newline (P := fun i i' d => i' = i ∧ D[i]? = d) ha.parsed hb'.parsed
    fun k => ⟨_, rfl, rfl⟩
  obtain ⟨ss, ts, hJ, hA, hB⟩ := hss.split
  have hA := hA.mono fun i hi i' d hd =>
    (.inr ⟨hd.1, hnum.2 i hi, hd.2⟩ : P.grow D s.nextId (s.prepared a).nextId i i' d)
  have hB := hB.mono fun i hi i' d hd =>
    (.inr ⟨hd.1, ⟨Nat.le_trans hle (hnum'.2 i hi).1, (hnum'.2 i hi).2⟩, hd.2⟩ :
      P.grow D s.nextId ((s.prepared a).parse b).2.2.nextId i i' d)
  obtain ⟨μ₁, m₁', hagrees⟩ := agrees_joined h.machine h.home (fun _ _ _ => .inl)
    (fun i i' d hp => hp.imp_right fun hp => ⟨hp.1, ⟨hp.2.1.1, Nat.lt_of_lt_of_le hp.2.1.2 hle'⟩,
      hp.2.2⟩) hfirst hboth hA hB hm₁
  refine ⟨hj, ?_⟩
  rw [runWith_accepted hb, runWith_accepted hj, hJ]
  exact hagrees.ends

def runAll (fuel : Nat) : Session → List String → Outcome × Session
  | s, [] => (.success, s)
  | s, [source] => s.runWith fuel source
  | s, source :: units => (s.runWith fuel source).2.runAll fuel units

/-- Units without static faults, of which only the last may fail. -/
def Proceeds (fuel : Nat) : Session → List String → Prop
  | _, [] => True
  | s, [source] => s.Accepts source
  | s, source :: units => s.Accepts source ∧ (s.runWith fuel source).1.isSuccess ∧
      (s.runWith fuel source).2.Proceeds fuel units

theorem runWith_empty (s : Session) (fuel : Nat) :
    s.Accepts "" ∧ s.runWith fuel "" = (.success, s) := by
  have hscan : scan "" = [.token ⟨.eof, "", 1⟩] := by simp [scan, scanFrom]
  have hparse : s.parse "" = ([], [], s) := by
    simp only [parse, Scanned.ofSource, hscan]
    rfl
  refine ⟨⟨by rw [hparse], by rw [hparse]; rfl⟩, ?_⟩
  unfold runWith
  rw [hparse]
  rfl

/-- Units that run one after another go as one unit of all their lines. -/
theorem runWith_intercalate (h : Reachable s) (fuel : Nat) (units : List String)
    (hp : s.Proceeds fuel units) :
    s.Accepts ("\n".intercalate units) ∧
      (s.runWith fuel ("\n".intercalate units)).1.eraseLines =
        (s.runAll fuel units).1.eraseLines ∧
      (s.runWith fuel ("\n".intercalate units)).2.machine.sink =
        (s.runAll fuel units).2.machine.sink := by
  induction units generalizing s with
  | nil =>
    obtain ⟨ha, hrun⟩ := s.runWith_empty fuel
    rw [String.intercalate_nil, hrun]
    exact ⟨ha, rfl, rfl⟩
  | cons source units ih =>
    cases units with
    | nil =>
      rw [String.intercalate_singleton]
      exact ⟨hp, rfl, rfl⟩
    | cons next units =>
      obtain ⟨ha, hok, hrest⟩ := hp
      obtain ⟨hwhole, houtcome, hsink⟩ := ih (h.unit fuel source) hrest
      obtain ⟨P, μ, hself⟩ := h.alike_self .lineless
      obtain ⟨hj, hnear, hsinkj⟩ := hself.newline ha (Outcome.eq_success hok) hwhole
      rw [String.intercalate_cons_cons]
      exact ⟨hj, (Wording.eraseLines_of_sameOutcome hnear).trans houtcome, hsinkj.trans hsink⟩

theorem runWith_intercalate_failing :
    (new .unlimited 0).Proceeds 9
        ["fun f() \x7b print a; \x7d", "var a = 2; // two", "f(); f(3);"] ∧
      ((new .unlimited 0).runWith 9 ("\n".intercalate
        ["fun f() \x7b print a; \x7d", "var a = 2; // two", "f(); f(3);"])).1.eraseLines =
      ((new .unlimited 0).runAll 9
        ["fun f() \x7b print a; \x7d", "var a = 2; // two", "f(); f(3);"]).1.eraseLines := by
  have hp : (new .unlimited 0).Proceeds 9
      ["fun f() \x7b print a; \x7d", "var a = 2; // two", "f(); f(3);"] := by
    refine ⟨⟨?_, ?_⟩, ?_, ⟨?_, ?_⟩, ?_, ⟨?_, ?_⟩⟩ <;> decide +kernel
  exact ⟨hp, (runWith_intercalate (.new .unlimited 0) 9 _ hp).2.1⟩

end Session

end Treewalk

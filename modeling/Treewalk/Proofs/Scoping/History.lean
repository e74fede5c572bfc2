import Treewalk.Proofs.Scoping.Execution

/-!
Sessions with all that happened in them: the points that their units went through and the places
that were resolved. What a unit leaves behind is sound for the units after it.
-/

namespace Treewalk

open Scopes

def Subject.refs : Subject → List Nat
  | .expr e => e.refs
  | .exprs es => Expr.refsAll es
  | .stmt s => s.refs
  | .stmts ss => Stmt.refsAll ss
  | .function decl => Stmt.refsFunction decl
  | .methods decls => Stmt.refsMethods decls

theorem Resolves.refs_subset (h : Resolves v w) : w.subject.refs ⊆ v.subject.refs := by
  cases h with
  | @body _ decl =>
    cases decl
    exact List.Subset.refl _
  | _ => simp [Subject.refs, Expr.refs, Expr.refsAll, Expr.refsOption, Stmt.refs, Stmt.refsAll,
      Stmt.refsMethods]

def Agree (ids : List Nat) (D D' : Distances) : Prop := ∀ i ∈ ids, D'[i]? = D[i]?

namespace Agree

variable {D D' : Distances}

theorem left (h : Agree (a ++ b) D D') : Agree a D D' :=
  fun i hi => h i (List.mem_append_left b hi)

theorem right (h : Agree (a ++ b) D D') : Agree b D D' :=
  fun i hi => h i (List.mem_append_right a hi)

end Agree

variable {D D' : Distances}

mutual

theorem Expr.Bound.congr : (e : Expr) → Agree e.refs D D' → e.Bound D cls scopes →
    e.Bound D' cls scopes
  | .literal _, _, _ => trivial
  | .group e, hD, h | .unary _ e, hD, h | .get e _, hD, h => Expr.Bound.congr e hD h
  | .binary l _ r, hD, h | .logical l _ r, hD, h | .set l _ r, hD, h =>
    ⟨Expr.Bound.congr l hD.left h.1, Expr.Bound.congr r hD.right h.2⟩
  | .name ref, hD, h => ⟨h.1, (hD ref.id (List.mem_singleton_self _)).trans h.2.1, h.2.2⟩
  | .assign ref e, hD, h => ⟨Expr.Bound.congr e hD.left h.1, h.2.1,
      (hD.right ref.id (List.mem_singleton_self _)).trans h.2.2⟩
  | .call callee _ args, hD, h =>
    ⟨Expr.Bound.congr callee hD.left h.1, Expr.BoundAll.congr args hD.right h.2⟩
  | .receiver ref, hD, h => ⟨h.1, (hD ref.id (List.mem_singleton_self _)).trans h.2⟩
  | .inherited ref _, hD, h =>
    ⟨h.1, h.2.1, (hD ref.id (List.mem_singleton_self _)).trans h.2.2⟩

theorem Expr.BoundAll.congr : (es : List Expr) → Agree (Expr.refsAll es) D D' →
    Expr.BoundAll D cls scopes es → Expr.BoundAll D' cls scopes es
  | [], _, _ => trivial
  | e :: es, hD, h => ⟨Expr.Bound.congr e hD.left h.1, Expr.BoundAll.congr es hD.right h.2⟩

end

theorem Expr.BoundOption.congr {e : Option Expr} (hD : Agree (Expr.refsOption e) D D')
    (h : Expr.BoundOption D cls scopes e) : Expr.BoundOption D' cls scopes e := by
  cases e with
  | none => trivial
  | some e => exact Expr.Bound.congr e hD h

mutual

theorem Stmt.Bound.congr : (s : Stmt) → Agree s.refs D D' → {ctx : Context} →
    {scopes : List StaticScope} → s.Bound D ctx scopes → s.Bound D' ctx scopes
  | .expr e, hD, _, _, h | .print e, hD, _, _, h => Expr.Bound.congr e hD h
  | .var _ _, hD, _, _, h => ⟨h.1, h.2.1, Expr.BoundOption.congr hD h.2.2⟩
  | .block body, hD, _, _, h => Stmt.BoundAll.congr body hD h
  | .ifThen c t, hD, _, _, h | .loop c t, hD, _, _, h =>
    ⟨Expr.Bound.congr c hD.left h.1, Stmt.Bound.congr t hD.right h.2.1, h.2.2⟩
  | .ifElse c t e, hD, _, _, h => ⟨Expr.Bound.congr c hD.left h.1,
      ⟨Stmt.Bound.congr t hD.right.left h.2.1.1, h.2.1.2⟩,
      Stmt.Bound.congr e hD.right.right h.2.2.1, h.2.2.2⟩
  | .function decl, hD, _, _, h => ⟨h.1, h.2.1, Stmt.BoundFunction.congr decl hD h.2.2⟩
  | .ret _ _, hD, _, _, h => Expr.BoundOption.congr hD h
  | .classDecl _ none ms, hD, _, _, h => ⟨h.1, h.2.1, Stmt.BoundMethods.congr ms hD.right h.2.2⟩
  | .classDecl _ (some e) ms, hD, _, _, h => ⟨h.1, h.2.1, Expr.Bound.congr e hD.left h.2.2.1,
      h.2.2.2.1, Stmt.BoundMethods.congr ms hD.right h.2.2.2.2⟩

theorem Stmt.BoundAll.congr : (ss : List Stmt) → Agree (Stmt.refsAll ss) D D' → {ctx : Context} →
    {scopes : List StaticScope} → Stmt.BoundAll D ctx scopes ss → Stmt.BoundAll D' ctx scopes ss
  | [], _, _, _, _ => trivial
  | s :: ss, hD, _, _, h =>
    ⟨Stmt.Bound.congr s hD.left h.1, Stmt.BoundAll.congr ss hD.right h.2⟩

theorem Stmt.BoundFunction.congr : (decl : FunctionDecl Stmt) →
    Agree (Stmt.refsFunction decl) D D' → {ctx : Context} → {scopes : List StaticScope} →
    Stmt.BoundFunction D ctx scopes decl → Stmt.BoundFunction D' ctx scopes decl
  | ⟨_, _, body⟩, hD, _, _, h => ⟨h.1, Stmt.BoundAll.congr body hD h.2⟩

theorem Stmt.BoundMethods.congr : (ms : List (FunctionDecl Stmt)) →
    Agree (Stmt.refsMethods ms) D D' → {cls : ClassContext} → {scopes : List StaticScope} →
    Stmt.BoundMethods D cls scopes ms → Stmt.BoundMethods D' cls scopes ms
  | [], _, _, _, _ => trivial
  | m :: ms, hD, _, _, h =>
    ⟨Stmt.BoundFunction.congr m hD.left h.1, Stmt.BoundMethods.congr ms hD.right h.2⟩

end

section Mono

variable {made made' : ScopeId → Opener → Prop} {seen seen' : Visit → Prop} {m : Machine}

theorem Lies.imp (hmade : ∀ s o, made s o → made' s o) {h : Heap}
    (hl : Lies made h g ids scopes os) : Lies made' h g ids scopes os := by
  induction hl with
  | globals => exact .globals
  | inside hne hb hm _ ih => exact .inside hne hb (hmade _ _ hm) ih

theorem Seen.imp (hseen : ∀ v, seen v → seen' v) (h : Seen seen a scopes os) :
    Seen seen' a scopes os := by
  obtain ⟨v, hv, h⟩ := h
  exact ⟨v, hseen v hv, h⟩

theorem Seen.agree (h : Seen seen a scopes os) (hD : ∀ v, seen v → Agree v.subject.refs D D') :
    Agree a.refs D D' := by
  obtain ⟨v, hv, rfl, -⟩ := h
  exact hD v hv

theorem Sound.settle (h : Sound made seen m) (hmade : ∀ s o, made s o → made' s o)
    (hseen : ∀ v, seen v → seen' v)
    (hD : ∀ v, seen v → Agree v.subject.refs m.distances D) :
    Sound made' seen' { m with distances := D } := by
  refine ⟨h.globals, fun f hf => ?_, fun c hc name f hget => ?_, h.supers⟩
  · obtain ⟨ctx, scopes, os, hl, hr, hn, hb, hp, hv⟩ := h.functions f hf
    exact ⟨ctx, scopes, os, hl.imp hmade, hr, hn, Stmt.BoundFunction.congr _ (hv.agree hD) hb, hp,
      hv.imp hseen⟩
  · obtain ⟨ctx, scopes, os, methods, hmem, hl, hr, hn, hb, hp, hv⟩ := h.methods c hc name f hget
    exact ⟨ctx, scopes, os, methods, hmem, hl.imp hmade, hr, hn,
      Stmt.BoundFunction.congr _ (hv.agree hD) hb, hp, hv.imp hseen⟩

theorem Sound.addNative (h : Sound made seen m) (native : Native) :
    Sound made seen (m.addNative native) := by
  have hlt : m.globals.index < m.heap.scopes.size :=
    Heap.chain_ne_nil_iff.mp (h.globals ▸ List.cons_ne_nil _ _)
  refine h.step (Heap.extends_define hlt) rfl rfl (fun f hf => .inl hf) (fun c hc => .inl hc)
    fun s v hne hb => .inl ?_
  rwa [Machine.addNative, Heap.binding?_define_of_ne _ _ _ _ hne.symm] at hb

end Mono

namespace Session

/-- The session right before a unit without faults is executed. -/
def prepared (s : Session) (source : String) : Session :=
  ((s.parse source).2.2.resolve (s.parse source).1).2

structure Accepts (s : Session) (source : String) : Prop where
  parsed : (s.parse source).2.1 = []
  resolved : ((s.parse source).2.2.resolve (s.parse source).1).1 = []

end Session

def Outcome.ofResult : EStateM.Result Halt Machine Unit → Outcome
  | .ok _ _ => success
  | .error (.fault d) _ => failed d
  | .error .exhausted _ => unfinished

/-- Where the statements of the global level start. -/
inductive Starts (fuel : Nat) : List Stmt → Machine → Point → Prop
  | head : Starts fuel (s :: ss) m ⟨fuel, .stmt s, m⟩
  | tail : execute fuel s m = .ok c m₁ → Starts fuel ss m₁ p → Starts fuel (s :: ss) m p

/-- The points of the execution of a unit. -/
inductive Executes (s : Session) (fuel : Nat) (source : String) : Point → Prop
  | start : s.Accepts source → Starts fuel (s.parse source).1 (s.prepared source).machine p →
      Executes s fuel source p
  | call : Executes s fuel source p → Calls p q → Executes s fuel source q

/-- The places of the resolution of a unit. -/
inductive Visits (s : Session) (source : String) : Visit → Prop
  | start : s.Accepts source → Visits s source
      ⟨⟨.outside, .outside⟩, .stmts (s.parse source).1, ⟨[], s.machine.distances, []⟩, []⟩
  | step : Visits s source v → Resolves v w → Visits s source w

/-- A session with the points and the places of all its units. -/
inductive History : Session → (Point → Prop) → (Visit → Prop) → Prop
  | new (sink : Sink) (now : Float) : History (.new sink now) (fun _ => False) (fun _ => False)
  | native (native : Native) : History s points seen → History (s.addNative native) points seen
  | unit (fuel : Nat) (source : String) : History s points seen →
      History (s.runWith fuel source).2 (fun p => points p ∨ Executes s fuel source p)
        (fun v => seen v ∨ Visits s source v)

structure Session.Settled (points : Point → Prop) (seen : Visit → Prop) (s : Session) : Prop where
  sound : Sound (Made points) seen s.machine
  home : s.machine.current = s.machine.globals
  unused : ∀ i, s.nextId ≤ i → s.machine.distances[i]? = none
  known : ∀ v, seen v → ∀ i ∈ v.subject.refs, i < s.nextId
  pointsClosed : ∀ p q, Calls p q → points p → points q
  seenClosed : ∀ v w, Resolves v w → seen v → seen w

theorem sound_empty (sink : Sink) (made : ScopeId → Opener → Prop) (seen : Visit → Prop) :
    Sound made seen ⟨(Heap.empty.addScope ⟨.empty, []⟩).2, #[], ⟨0⟩, ⟨0⟩, ∅, sink⟩ := by
  refine ⟨rfl, fun f hf => absurd hf (Array.not_mem_empty f),
    fun c hc => absurd hc (Array.not_mem_empty c), fun s v _ hb => ?_⟩
  unfold Heap.binding? at hb
  split at hb
  · next scope hs =>
    have hmem : scope = ⟨.empty, []⟩ := by
      simpa [Heap.addScope, Heap.empty] using Array.mem_of_getElem? hs
    subst hmem
    cases hb
  · cases hb

theorem settled_new (sink : Sink) (now : Float) :
    Session.Settled (fun _ => False) (fun _ => False) (.new sink now) :=
  ⟨(sound_empty sink _ _).addNative (Machine.clock now), rfl, fun _ _ => rfl, fun _ h => h.elim,
    fun _ _ _ h => h, fun _ _ _ h => h⟩

theorem Session.Settled.native {s : Session} (h : s.Settled points seen) (native : Native) :
    (s.addNative native).Settled points seen :=
  ⟨h.sound.addNative native, h.home, h.unused, h.known, h.pointsClosed, h.seenClosed⟩

section Unit

variable {points : Point → Prop} {seen : Visit → Prop} {m : Machine}

theorem Stmt.scopesAfter_nil (s : Stmt) : s.scopesAfter [] = [] := by
  unfold Stmt.scopesAfter
  split <;> rfl

theorem Sound.at_globals (h : Sound (Made points) seen m) (hc : m.current = m.globals) :
    At points m .outside [] [] := by
  refine ⟨⟨?_, nofun, ready_nil⟩, trivial, ready_nil.not_unready "this"⟩
  rw [hc, h.globals]
  exact .globals

theorem fine_interpret (hpoints : ∀ p q, Calls p q → points p → points q)
    (hseen : ∀ v w, Resolves v w → seen v → seen w) (fuel : Nat) (ss : List Stmt) {m : Machine}
    (hs : Sound (Made points) seen m) (hc : m.current = m.globals)
    (hb : Stmt.BoundAll m.distances ⟨.outside, .outside⟩ [] ss) (hp : Stmt.ProperAll ss)
    (hv : Seen seen (.stmts ss) [] []) (hmem : ∀ p, Starts fuel ss m p → points p) :
    Kept (Made points) seen anywhere m (fun _ _ => True) (interpret fuel ss m) ∧
      ∀ p, Starts fuel ss m p → Fine points seen p := by
  induction ss generalizing m with
  | nil => exact ⟨Kept.pure hs trivial, fun p hstart => by cases hstart⟩
  | cons s ss ih =>
    have hfirst : Fine points seen ⟨fuel, .stmt s, m⟩ :=
      ⟨hmem _ .head, hs, ⟨.outside, .outside⟩, [], [], hs.at_globals hc, ready_nil, hb.1, hp.1,
        hv.step hseen fun ctx r hr => ⟨_, .first, rfl, rfl, hr⟩⟩
    have hk : Kept (Made points) seen anywhere m (fun _ _ => True) (execute fuel s m) :=
      (hfirst.ends hpoints hseen).mono (fun _ _ => trivial) fun _ _ _ => trivial
    have hrest {c : Completion} {m₁ : Machine} (heq : execute fuel s m = .ok c m₁)
        (he : Evolves (Made points) seen anywhere m m₁) :=
      ih he.sound (by rw [he.current, he.globals, hc])
        (by rw [he.distances]; exact s.scopesAfter_nil ▸ hb.2) hp.2
        (hv.step hseen fun ctx r hr =>
          ⟨_, .rest, rfl, rfl, by rw [s.scopes_resolve ctx hp.1, hr, s.scopesAfter_nil]⟩)
        fun p hstart => hmem p (.tail heq hstart)
    refine ⟨Kept.bind hk fun c m₁ heq he _ => (hrest heq he).1, fun p hstart => ?_⟩
    cases hstart with
    | head => exact hfirst
    | tail heq hstart => exact (hrest heq (hk.of_ok heq).1).2 p hstart

variable {s : Session}

theorem Session.nextId_le_parse (s : Session) (source : String) :
    s.nextId ≤ (s.parse source).2.2.nextId := by
  obtain ⟨ss, d, hd, hl, -⟩ := Grammar.program_ok
    (Cursor.eof_kind_ofTokens (Scanned.ofSource source).tokens s.nextId)
    (Nat.lt_succ_self _)
  have hp : (Cursor.ofTokens (Scanned.ofSource source).tokens s.nextId).program = (ss, d) := by
    simp only [Cursor.program, Cursor.fuel, hd]
  simp only [Session.parse, hp]
  exact hl.nextId

theorem Session.runWith_malformed (h : (s.parse source).2.1 ≠ []) :
    s.runWith fuel source = (.malformed (s.parse source).2.1, (s.parse source).2.2) := by
  simp [runWith, h]

theorem Session.runWith_unresolved (hp : (s.parse source).2.1 = [])
    (hr : ((s.parse source).2.2.resolve (s.parse source).1).1 ≠ []) :
    s.runWith fuel source =
      (.unresolved ((s.parse source).2.2.resolve (s.parse source).1).1, s.prepared source) := by
  simp [runWith, prepared, hp, hr]

theorem Session.runWith_accepted (h : s.Accepts source) :
    s.runWith fuel source =
      (.ofResult (Treewalk.interpret fuel (s.parse source).1 (s.prepared source).machine),
        { s.prepared source with
          machine := Run.after (s.prepared source).machine
            (Treewalk.interpret fuel (s.parse source).1) }) := by
  cases hi : Treewalk.interpret fuel (s.parse source).1 (s.prepared source).machine with
  | ok a m =>
    simp only [prepared] at hi
    simp [runWith, h.parsed, h.resolved, Session.interpret, Outcome.ofResult, Run.after, prepared,
      hi]
  | error halt m =>
    simp only [prepared] at hi
    cases halt <;>
      simp [runWith, h.parsed, h.resolved, Session.interpret, Outcome.ofResult, Run.after, prepared,
        hi]

theorem Session.accepts_cases (s : Session) (source : String) :
    (s.parse source).2.1 ≠ [] ∨
    (s.parse source).2.1 = [] ∧ ((s.parse source).2.2.resolve (s.parse source).1).1 ≠ [] ∨
    s.Accepts source := by
  by_cases hp : (s.parse source).2.1 = []
  · by_cases hr : ((s.parse source).2.2.resolve (s.parse source).1).1 = []
    · exact .inr (.inr ⟨hp, hr⟩)
    · exact .inr (.inl ⟨hp, hr⟩)
  · exact .inl hp

theorem Session.runWith_cases (s : Session) (fuel : Nat) (source : String) :
    ¬ s.Accepts source ∧ (s.runWith fuel source).2 = (s.parse source).2.2 ∨
    ¬ s.Accepts source ∧ (s.parse source).2.1 = [] ∧
      (s.runWith fuel source).2 = s.prepared source ∨
    s.Accepts source ∧ (s.runWith fuel source).2 =
      { s.prepared source with
        machine := Run.after (s.prepared source).machine
          (Treewalk.interpret fuel (s.parse source).1) } := by
  obtain hp | ⟨hp, hr⟩ | ha := s.accepts_cases source
  · exact .inl ⟨fun h => hp h.parsed, by rw [runWith_malformed hp]⟩
  · exact .inr (.inl ⟨fun h => hr h.resolved, hp, by rw [runWith_unresolved hp hr]⟩)
  · exact .inr (.inr ⟨ha, by rw [runWith_accepted ha]⟩)

theorem Session.agree_prepared (hi : i ∉ Stmt.refsAll (s.parse source).1) :
    (s.prepared source).machine.distances[i]? = s.machine.distances[i]? :=
  (Stmt.extends_resolveAll ⟨.outside, .outside⟩ (s.parse source).1
    ⟨[], s.machine.distances, []⟩).distances i hi

theorem Session.Settled.prepared (h : s.Settled points seen) (hp : (s.parse source).2.1 = []) :
    (s.prepared source).Settled points seen := by
  obtain ⟨hle, hproper, hnum⟩ := formed_parse hp
  refine ⟨h.sound.settle (fun _ _ h => h) (fun _ h => h) fun v hv i hi => ?_, h.home, fun i hi => ?_,
    fun v hv i hi => Nat.lt_of_lt_of_le (h.known v hv i hi) hle, h.pointsClosed, h.seenClosed⟩
  · refine agree_prepared fun hmem => ?_
    have hlt := h.known v hv i hi
    have hge := (hnum.2 i hmem).1
    omega
  · have hi : (s.parse source).2.2.nextId ≤ i := hi
    rw [agree_prepared fun hmem => ?_]
    · exact h.unused i (Nat.le_trans hle hi)
    · have hlt := (hnum.2 i hmem).2
      omega

theorem Visits.refs_subset (h : Visits s source v) :
    v.subject.refs ⊆ Stmt.refsAll (s.parse source).1 := by
  induction h with
  | start => exact List.Subset.refl _
  | step _ hstep ih => exact fun i hi => ih (hstep.refs_subset hi)

theorem Session.Accepts.bound (ha : s.Accepts source) (h : s.Settled points seen) :
    Stmt.BoundAll (s.prepared source).machine.distances ⟨.outside, .outside⟩ []
      (s.parse source).1 := by
  obtain ⟨-, hproper, hnum⟩ := formed_parse ha.parsed
  exact Stmt.boundAll_of_settles _ hproper (r := ⟨[], s.machine.distances, []⟩)
    ⟨hnum.1, fun i hi => h.unused i (hnum.2 i hi).1, ha.resolved, fun _ _ => rfl⟩

theorem Kept.after {made : ScopeId → Opener → Prop} {R : α → Machine → Prop} {x : Run α}
    (h : Kept made seen anywhere m R (x m)) : Evolves made seen anywhere m (Run.after m x) := by
  unfold Run.after
  match x m, h with
  | .ok a m', ⟨he, _⟩ => exact he
  | .error e m', he => exact he

theorem Session.Settled.accepted (h : s.Settled points seen) (ha : s.Accepts source) (fuel : Nat) :
    (s.runWith fuel source).2.Settled (fun p => points p ∨ Executes s fuel source p)
        (fun v => seen v ∨ Visits s source v) ∧
      ∀ p, Executes s fuel source p → Fine (fun p => points p ∨ Executes s fuel source p)
        (fun v => seen v ∨ Visits s source v) p := by
  obtain ⟨hle, hproper, hnum⟩ := formed_parse ha.parsed
  have hready := h.prepared ha.parsed
  have hpoints : ∀ p q, Calls p q → points p ∨ Executes s fuel source p →
      points q ∨ Executes s fuel source q := fun p q hc hp =>
    hp.imp (h.pointsClosed p q hc) fun hp => hp.call hc
  have hseen : ∀ v w, Resolves v w → seen v ∨ Visits s source v → seen w ∨ Visits s source w :=
    fun v w hr hv => hv.imp (h.seenClosed v w hr) fun hv => hv.step hr
  have hmade : ∀ t o, Made points t o → Made (fun p => points p ∨ Executes s fuel source p) t o :=
    fun t o ⟨p, hp, ho⟩ => ⟨p, .inl hp, ho⟩
  -- what an earlier unit made, this one finds as it was
  have hsound : Sound (Made fun p => points p ∨ Executes s fuel source p)
      (fun v => seen v ∨ Visits s source v) (s.prepared source).machine :=
    hready.sound.settle hmade (fun _ => .inl) fun _ _ _ _ => rfl
  obtain ⟨hkept, hfine⟩ := fine_interpret hpoints hseen fuel (s.parse source).1 hsound hready.home
    (ha.bound h) hproper ⟨_, .inr (.start ha), rfl, rfl, rfl⟩ fun p hp => .inr (.start ha hp)
  constructor
  · obtain ⟨hn, -⟩ | ⟨hn, -⟩ | ⟨-, hrun⟩ := s.runWith_cases fuel source
    · exact absurd ha hn
    · exact absurd ha hn
    · rw [hrun]
      have he := hkept.after
      refine ⟨he.sound, ?_, ?_, ?_, hpoints, hseen⟩
      · rw [he.current, he.globals]
        exact hready.home
      · rw [he.distances]
        exact hready.unused
      · rintro v (hv | hv) i hi
        · exact hready.known v hv i hi
        · exact (hnum.2 i (hv.refs_subset hi)).2
  · intro p hp
    induction hp with
    | start _ hstart => exact hfine _ hstart
    | call _ hc ih => exact ih.calls hpoints hseen hc

theorem Executes.accepts (h : Executes s fuel source p) : s.Accepts source := by
  induction h with
  | start ha => exact ha
  | call _ _ ih => exact ih

theorem Visits.accepts (h : Visits s source v) : s.Accepts source := by
  induction h with
  | start ha => exact ha
  | step _ _ ih => exact ih

theorem or_executes_of_rejected (hn : ¬ s.Accepts source) (points : Point → Prop) (fuel : Nat) :
    (fun p => points p ∨ Executes s fuel source p) = points :=
  funext fun _ => propext (or_iff_left fun he => hn he.accepts)

theorem or_visits_of_rejected (hn : ¬ s.Accepts source) (seen : Visit → Prop) :
    (fun v => seen v ∨ Visits s source v) = seen :=
  funext fun _ => propext (or_iff_left fun he => hn he.accepts)

theorem Session.Settled.rejected (h : s.Settled points seen) (hn : ¬ s.Accepts source) (fuel : Nat) :
    s.Settled (fun p => points p ∨ Executes s fuel source p)
      (fun v => seen v ∨ Visits s source v) := by
  rwa [or_executes_of_rejected hn, or_visits_of_rejected hn]

theorem History.settled (h : History s points seen) : s.Settled points seen := by
  induction h with
  | new sink now => exact settled_new sink now
  | native native _ ih => exact ih.native native
  | @unit s points seen fuel source _ ih =>
    obtain ⟨hn, hrun⟩ | ⟨hn, hp, hrun⟩ | ⟨ha, -⟩ := s.runWith_cases fuel source
    · have hle := s.nextId_le_parse source
      have h := ih.rejected hn fuel
      rw [hrun]
      exact ⟨h.sound, h.home, fun i hi => h.unused i (Nat.le_trans hle hi),
        fun v hv i hi => Nat.lt_of_lt_of_le (h.known v hv i hi) hle, h.pointsClosed, h.seenClosed⟩
    · rw [hrun]
      exact (ih.rejected hn fuel).prepared hp
    · exact (ih.accepted ha fuel).1

theorem History.fine (h : History s points seen) (hp : Executes s fuel source p) :
    Fine (fun p => points p ∨ Executes s fuel source p) (fun v => seen v ∨ Visits s source v) p :=
  (h.settled.accepted hp.accepts fuel).2 p hp

theorem History.ends (h : History s points seen) (hp : Executes s fuel source ⟨n, code, m⟩) :
    Ends (fun p => points p ∨ Executes s fuel source p) (fun v => seen v ∨ Visits s source v)
      ⟨n, code, m⟩ := by
  have hnext := (h.unit fuel source).settled
  exact (h.fine hp).ends hnext.pointsClosed hnext.seenClosed

end Unit

end Treewalk

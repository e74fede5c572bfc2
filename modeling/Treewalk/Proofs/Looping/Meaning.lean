import Treewalk.Proofs.Looping.Layout
import Treewalk.Proofs.Looping.Rounds
import Treewalk.Proofs.Scoping.Correspondence
import Treewalk.Proofs.Scoping.Declarations

namespace Treewalk

open Scopes Run Resolution

theorem Resolves.refs_sublist (h : Resolves v w) : w.subject.refs.Sublist v.subject.refs := by
  cases h with
  | group | unary | get | expr | print | var | block | function | ret | baseMethods =>
    exact List.Sublist.refl _
  | binaryLeft | logicalLeft | assign | callee | setObject | head | ifThenCondition |
    ifElseCondition | loopCondition | superclass | first | method =>
    exact List.sublist_append_left _ _
  | binaryRight | logicalRight | arguments | setValue | tail | ifThenBranch | loopBody |
    derivedMethods | rest | otherMethods =>
    exact List.sublist_append_right _ _
  | ifElseThen => exact (List.sublist_append_left _ _).trans (List.sublist_append_right _ _)
  | ifElseElse => exact (List.sublist_append_right _ _).trans (List.sublist_append_right _ _)
  | @body _ decl =>
    cases decl
    exact List.Sublist.refl _

theorem Visits.nodup (h : Visits s source v) : v.subject.refs.Nodup := by
  induction h with
  | start ha => exact (Session.formed_parse ha.parsed).2.2.1
  | step _ hr ih => exact ih.sublist hr.refs_sublist

theorem History.nodup (h : History s points seen) (hv : seen v) : v.subject.refs.Nodup := by
  induction h with
  | new => exact hv.elim
  | native _ _ ih => exact ih hv
  | unit _ _ _ ih => exact hv.elim ih Visits.nodup

namespace Counting

def refs (loop : Counting) : List Nat :=
  (loop.start.elim [] Stmt.refs) ++ (loop.test.refs ++ (loop.body.refs ++ Expr.refsOption loop.step))

theorem refs_stmt (loop : Counting) : loop.stmt.refs = loop.refs := by
  obtain ⟨start, condition, step, body, -⟩ := loop
  cases start <;> cases step <;>
    simp [stmt_eq, repeated, refs, test, Stmt.refs, Stmt.refsAll, Expr.refsOption]

theorem test_renumber (k : Nat) (loop : Counting) :
    (loop.renumber k).test = loop.test.renumber k := by
  obtain ⟨start, condition, step, body, -⟩ := loop
  cases condition <;> rfl

theorem refs_renumber (k : Nat) (loop : Counting) :
    (loop.renumber k).refs = loop.refs.map (· + k) := by
  rw [refs, test_renumber, Expr.refs_renumber]
  obtain ⟨start, condition, step, body, -⟩ := loop
  cases start <;>
    simp [renumber, refs, Expr.refsOption_renumber, Stmt.refs_renumber]

theorem extends_resolveRound (loop : Counting) (ctx : Context) (r : Resolution) :
    Extends (loop.test.refs ++ (loop.body.refs ++ Expr.refsOption loop.step)) r
      (loop.resolveRound ctx r) :=
  (loop.test.extends_resolve ctx.cls r).1.trans
    ((loop.body.extends_resolve ctx _).trans (Expr.extends_resolveOption ctx.cls loop.step _).1)

theorem extends_resolve (loop : Counting) (ctx : Context) (r : Resolution) :
    Extends loop.refs r (loop.resolve ctx r) := by
  unfold refs resolve
  cases loop.start with
  | none => exact loop.extends_resolveRound ctx r
  | some s => exact .within ((s.extends_resolve ctx _).trans (loop.extends_resolveRound ctx _))

end Counting

section Copy

variable {D D' : Distances} {k : Nat} {ctx ctx' : Context} {scopes : List StaticScope}
  {r : Resolution}

theorem liftedRound_renumber {step : Option Expr} {body : Stmt} (hplain : body.declared? = none)
    (hp : (Counting.repeated step body).Proper)
    (hb : (Counting.repeated step body).Bound D ctx scopes) (hh : Homed ctx.cls ctx'.cls scopes)
    (hr : r.scopes = scopes)
    (h : Records D' ((body.renumber k).refs ++ Expr.refsOption (step.map (·.renumber k))) r
      (Expr.resolveOption ctx'.cls (step.map (·.renumber k)) ((body.renumber k).resolve ctx' r))) :
    LiftedRound D D' step body (step.map (·.renumber k)) (body.renumber k) := by
  have hx := (body.renumber k).extends_resolve ctx' r
  obtain ⟨h₁, h₂⟩ := h.split hx (Expr.extends_resolveOption ctx'.cls (step.map (·.renumber k)) _).1
  cases step with
  | none => exact .bare (Stmt.lifted_renumber body hp .plain hh nofun hb hr h₁)
  | some e =>
    obtain ⟨hbody, he, -⟩ := hb
    rw [Stmt.scopesAfter_of_none hplain] at he
    have hl : Scopes.Lifted [true] (Bindings.empty :: scopes) scopes := .gap .plain
    have hh := hh.push plain_empty
    refine .step (Stmt.lifted_renumber body hp.1 hl hh (fun _ => hplain) hbody hr h₁)
      (Expr.lifted_renumber hl hh e he ?_ h₂)
    rw [(body.renumber k).scopes_resolve ctx' (body.proper_renumber k hp.1),
      body.scopesAfter_renumber, Stmt.scopesAfter_of_none hplain, hr]

theorem Counting.lifted_renumber (loop : Counting) (hp : loop.stmt.Proper)
    (hb : loop.stmt.Bound D ctx scopes) (hh : Homed ctx.cls ctx'.cls scopes) (hr : r.scopes = scopes)
    (h : Records D' (loop.renumber k).refs r ((loop.renumber k).resolve ctx' r)) :
    loop.Lifted D D' (loop.renumber k) := by
  rw [loop.stmt_eq] at hp hb
  -- from the scope of the loop on
  have hround {scopes : List StaticScope} {r : Resolution} (hh : Homed ctx.cls ctx'.cls scopes)
      (hr : r.scopes = scopes)
      (hp : (Stmt.loop loop.test (repeated loop.step loop.body)).Proper)
      (hb : (Stmt.loop loop.test (repeated loop.step loop.body)).Bound D ctx scopes)
      (h : Records D' ((loop.renumber k).test.refs ++ ((loop.renumber k).body.refs ++
        Expr.refsOption (loop.renumber k).step)) r ((loop.renumber k).resolveRound ctx' r)) :
      loop.test.Lifted D D' [] (loop.renumber k).test ∧
        LiftedRound D D' loop.step loop.body (loop.renumber k).step (loop.renumber k).body := by
    rw [resolveRound, test_renumber] at h
    rw [test_renumber]
    have hx := (loop.test.renumber k).extends_resolve ctx'.cls r
    obtain ⟨h₁, h₂⟩ := h.split hx.1 (((loop.renumber k).body.extends_resolve ctx' _).trans
      (Expr.extends_resolveOption ctx'.cls (loop.renumber k).step _).1)
    exact ⟨Expr.lifted_renumber .plain hh loop.test hb.1 hr h₁,
      liftedRound_renumber loop.plain hp.2.1 hb.2.1 hh (hx.2.trans hr) h₂⟩
  have hrefs : (loop.renumber k).refs =
      ((loop.start.map (·.renumber k)).elim [] Stmt.refs) ++ _ := rfl
  have hresolve : (loop.renumber k).resolve ctx' r =
      (loop.start.map (·.renumber k)).elim ((loop.renumber k).resolveRound ctx' r) fun s =>
        r.within .empty fun r => (loop.renumber k).resolveRound ctx' (s.resolve ctx' r) := by
    rw [resolve, show (loop.renumber k).start = loop.start.map (·.renumber k) from rfl]
    cases loop.start <;> rfl
  rw [hrefs, hresolve] at h
  suffices hs : Option.Rel (Stmt.Lifted D D' [false]) loop.start (loop.start.map (·.renumber k)) ∧
      loop.test.Lifted D D' [] (loop.renumber k).test ∧
      LiftedRound D D' loop.step loop.body (loop.renumber k).step (loop.renumber k).body from
    ⟨hs.1, hs.2.1, hs.2.2⟩
  generalize loop.start = start at hp hb h ⊢
  cases start with
  | none => exact ⟨.none, hround hh hr hp hb h⟩
  | some s =>
    obtain ⟨hs, hloop, -⟩ := hp
    obtain ⟨hbs, hbloop, -⟩ := hb
    have hh := hh.push plain_empty
    simp only [Option.map_some, Option.elim_some] at h
    obtain ⟨h₁, h₂⟩ := h.within.split ((s.renumber k).extends_resolve ctx' _)
      ((loop.renumber k).extends_resolveRound ctx' _)
    have hscopes : Bindings.empty :: r.scopes = Bindings.empty :: scopes := congrArg _ hr
    refine ⟨.some (Stmt.lifted_renumber s hs (.kept .plain) hh nofun hbs hscopes h₁),
      hround (hh.after hs) ?_ hloop hbloop h₂⟩
    rw [(s.renumber k).scopes_resolve ctx' (s.proper_renumber k hs), s.scopesAfter_renumber, hscopes]

end Copy

section Identity

variable {points : Point → Prop} {seen : Visit → Prop} {made : ScopeId → Opener → Prop}
  {h : Heap} {m : Machine} {s t : ScopeId} {D' : Distances} {inner : List Bool}

theorem Accounted.chain_ne_nil (ha : Accounted points h) (ht : t ∈ h.chain s) : h.chain t ≠ [] := by
  obtain ⟨i, hi⟩ := List.getElem?_of_mem ht
  rw [← ha.chains s i t hi]
  exact fun hn => by simp [← List.head?_drop, hn] at hi

theorem aligned_identity (ha : Accounted points h) (hs : h.chain s ≠ []) :
    Placing.Aligned (.identity h.scopes.size) [] (h.chain s) (h.chain s) :=
  .plain hs (List.forall₂_same.mpr fun _ ht =>
    Placing.puts_identity_iff.mpr ⟨Heap.chain_ne_nil_iff.mp (ha.chain_ne_nil ht), rfl⟩)

theorem Closure.lifted_identity (ha : Accounted points h) {f : Closure} (hs : h.chain f.scope ≠ [])
    (hi : true ∉ inner) {D : Distances} (hD : Agree (Stmt.refsFunction f.decl) D D') :
    f.Lifted D D' (.identity h.scopes.size) inner h h f := by
  refine ⟨Placing.puts_identity_iff.mpr ⟨Heap.chain_ne_nil_iff.mp hs, rfl⟩, rfl, [],
    aligned_identity ha hs, Stmt.liftedFunction_self ?_ f.decl hD⟩
  rwa [List.append_nil]

theorem alongside_self {α : Type} {R : Nat → α → α → Prop} {a : Array α} (h : ∀ x ∈ a, ∀ i, R i x x) :
    Alongside R a a := by
  intro i
  cases hi : a[i]? with
  | none => exact .none
  | some x => exact .some (h x (Array.mem_of_getElem? hi) i)

theorem Machine.lifted_identity (ha : Accounted points m.heap) (hs : Sound made seen m)
    (hfixed : ∀ native ∈ m.natives, native.Fixed)
    (hD : ∀ v, seen v → Agree v.subject.refs m.distances D') :
    m.Lifted m.distances D' (.identity m.heap.scopes.size) { m with distances := D' } := by
  refine ⟨⟨Array.size_ofFn, fun s t hp => ?_, fun s s' t hp hp' => ?_, fun s t hp name => ?_,
    fun s ho => (Placing.not_omits_identity ho).elim, alongside_self fun f hf _ => ?_,
    alongside_self fun c hc _ => ⟨rfl, rfl, fun name => ?_⟩, rfl⟩, rfl, hfixed,
    aligned_identity ha (by simp [hs.globals]), rfl, rfl, rfl⟩
  · obtain ⟨hlt, rfl⟩ := Placing.puts_identity_iff.mp hp
    exact hlt
  · obtain ⟨-, rfl⟩ := Placing.puts_identity_iff.mp hp
    exact (Placing.puts_identity_iff.mp hp').2.symm
  · obtain ⟨-, rfl⟩ := Placing.puts_identity_iff.mp hp
    rfl
  · obtain ⟨_, _, _, hl, -, -, -, -, hv⟩ := hs.functions f hf
    exact Closure.lifted_identity ha hl.ne_nil (by simp) (hv.agree hD)
  · cases hget : c.methods.get? name with
    | none => exact .none
    | some f =>
      obtain ⟨_, _, _, _, -, hl, -, -, -, -, hv⟩ := hs.methods c hc name f hget
      exact .some (Closure.lifted_identity ha hl.ne_nil (by simp) (hv.agree hD))

end Identity

def Run.ending {α : Type} (x : Run α) (m : Machine) : Except Halt α :=
  match x m with
  | .ok a _ => .ok a
  | .error e _ => .error e

/-- Two runs end alike and leave the same behind, in the same scope as before. Of the scopes that the
first one made, the second may lack some, in which nothing is bound; the others lie somewhere on its
machine, and those that were there before lie where they were. -/
structure Run.Coincides {α : Type} (m : Machine) (x : Run α) (m' : Machine) (x' : Run α)
    (place : ScopeId → Option ScopeId) : Prop where
  ending : ending x' m' = ending x m
  sink : (Run.after m' x').sink = (Run.after m x).sink
  before : ∀ s, s.index < m.heap.scopes.size → place s = some s
  bindings : ∀ s t, place s = some t → ∀ name,
    (Run.after m' x').heap.binding? t name = (Run.after m x).heap.binding? s name
  unbound : ∀ s, place s = none → ∀ name, (Run.after m x).heap.binding? s name = none
  view : (Run.after m' x').heap.view = (Run.after m x).heap.view
  current : (Run.after m x).current = m.current ∧ (Run.after m' x').current = m'.current

namespace Run

variable {D D' : Distances} {m m' : Machine} {α : Type} {x x' : Run α}

theorem Tracks.coincides {n : Nat} {μ : Placing} {m₁ m₁' : Machine}
    (h : Tracks D D' (.identity n) m m' μ m₁ m₁') (hn : n = m.heap.scopes.size)
    (hx : Run.after m x = m₁) (hx' : Run.after m' x' = m₁') (he : ending x' m' = ending x m) :
    Coincides m x m' x' fun s => (μ[s.index]?).join := by
  subst hx hx'
  refine ⟨he, h.lifted.sink, fun s hs => ?_, fun s t hp => h.lifted.heap.bindings s t ?_,
    fun s hp name => ?_, h.lifted.heap.view, h.current, h.current'⟩
  · rw [h.grows.places s.index (some s) (Placing.puts_identity_iff.mpr ⟨hn ▸ hs, rfl⟩)]
    rfl
  · exact Option.join_eq_some_iff.mp hp
  · obtain hnone | ho := Option.join_eq_none_iff.mp hp
    · have hs := Array.getElem?_eq_none_iff.mp hnone
      rw [h.lifted.heap.size] at hs
      rw [Heap.binding?, Array.getElem?_eq_none_iff.mpr hs]
    · exact h.lifted.heap.unbound s ho name

theorem Matches.coincides
    (h : Matches D D' (.identity m.heap.scopes.size) m m' equal (x m) (x' m')) :
    ∃ place, Coincides m x m' x' place := by
  generalize hr : x m = r, hr' : x' m' = r' at h
  cases h with
  | ok ha h =>
    cases ha
    exact ⟨_, h.coincides rfl (after_of_ok hr) (after_of_ok hr') (by rw [ending, ending, hr, hr'])⟩
  | error h =>
    exact ⟨_, h.coincides rfl (after_of_error hr) (after_of_error hr')
      (by rw [ending, ending, hr, hr'])⟩

end Run

/-- The machine for a copy of a loop: it knows the distances that the copy has where the loop was
resolved. -/
def Counting.machine (copy : Counting) (v : Visit) (m : Machine) : Machine :=
  { m with
    distances := (copy.resolve v.context { v.state with distances := m.distances }).distances }

variable {points : Point → Prop} {seen : Visit → Prop} {s : Session} {m m₁ : Machine}

structure Machine.SameTables (m m₁ : Machine) : Prop where
  natives : m₁.natives = m.natives
  distances : m₁.distances = m.distances

theorem Machine.SameTables.trans (h : m.SameTables m₁) (h₁ : m₁.SameTables m₂) : m.SameTables m₂ :=
  ⟨h₁.natives.trans h.natives, h₁.distances.trans h.distances⟩

theorem Run.Evaluates.sameTables {α : Type} {x : Run α} {a : α} (hx : Evaluates x)
    (h : x m = .ok a m₁) :
    m.SameTables m₁ := by
  have hf := hx.frame m
  rw [after_of_ok h] at hf
  exact ⟨hf.natives, hf.distances⟩

theorem Calls.sameTables (h : Calls p q) : p.machine.SameTables q.machine := by
  cases h with
  | binaryRight h | arguments h | setValue h | tail h => exact (evaluates_evaluate _ _).sameTables h
  | logicalRight h _ | ifThenBranch h _ => exact (evaluates_evaluate _ _).sameTables h
  | ifElseThen h _ | ifElseElse h _ | round h _ => exact (evaluates_evaluate _ _).sameTables h
  | apply h h₁ =>
    exact ((evaluates_evaluate _ _).sameTables h).trans ((evaluates_evaluateAll _ _).sameTables h₁)
  | again h _ h₁ =>
    exact ((evaluates_evaluate _ _).sameTables h).trans ((evaluates_execute _ _).sameTables h₁)
  | rest h => exact (evaluates_execute _ _).sameTables h
  | initializer _ _ h =>
    cases h
    exact ⟨rfl, rfl⟩
  | _ => exact ⟨rfl, rfl⟩

theorem Starts.sameTables (h : Starts fuel ss m p) : m.SameTables p.machine := by
  induction h with
  | head => exact ⟨rfl, rfl⟩
  | tail h _ ih => exact ((evaluates_execute _ _).sameTables h).trans ih

theorem Executes.sameTables (h : Executes s fuel source p) :
    (s.prepared source).machine.SameTables p.machine := by
  induction h with
  | start _ h => exact h.sameTables
  | call _ hc ih => exact ih.trans hc.sameTables

theorem History.unused (h : History s points seen) (hp : Executes s fuel source p)
    (hi : (s.runWith fuel source).2.nextId ≤ i) : p.machine.distances[i]? = none := by
  have hready := h.settled.prepared hp.accepts.parsed
  rw [hp.sameTables.distances]
  rw [Session.runWith_accepted hp.accepts] at hi
  exact hready.unused i hi

theorem Counting.copied (loop : Counting) (hp : loop.stmt.Proper) {v : Visit}
    (hb : loop.stmt.Bound m.distances ctx v.state.scopes)
    (hh : Homed ctx.cls v.context.cls v.state.scopes)
    (hnodup : loop.stmt.refs.Nodup) (hunused : ∀ i, k ≤ i → m.distances[i]? = none) :
    loop.Lifted m.distances ((loop.renumber k).machine v m).distances (loop.renumber k) ∧
      ∀ i < k, ((loop.renumber k).machine v m).distances[i]? = m.distances[i]? := by
  have hlarge : ∀ i ∈ (loop.renumber k).refs, k ≤ i := by
    rw [refs_renumber]
    intro i hi
    obtain ⟨j, -, rfl⟩ := List.mem_map.mp hi
    exact Nat.le_add_left k j
  have hdistinct : (loop.renumber k).refs.Nodup := by
    rw [refs_renumber, ← refs_stmt]
    exact hnodup.map fun _ _ => Nat.add_right_cancel
  have hrecords : Records ((loop.renumber k).machine v m).distances (loop.renumber k).refs
      { v.state with distances := m.distances } ((loop.renumber k).resolve v.context _) :=
    ⟨hdistinct, fun i hi => hunused i (hlarge i hi), fun _ _ => rfl⟩
  have hscopes : ({ v.state with distances := m.distances } : Resolution).scopes = v.state.scopes :=
    rfl
  refine ⟨loop.lifted_renumber hp hb hh hscopes hrecords, fun i hi => ?_⟩
  exact ((loop.renumber k).extends_resolve v.context _).distances i fun hmem =>
    absurd (hlarge i hmem) (Nat.not_le.mpr hi)

theorem Counting.coincides (loop : Counting) (h : History s points seen)
    (hp : Executes s fuel source ⟨n, .stmt loop.stmt, m⟩)
    (hfixed : ∀ native ∈ s.machine.natives, native.Fixed) (copy : Counting)
    (hcopy : copy = loop.renumber (s.runWith fuel source).2.nextId) :
    ∃ v, (seen v ∨ Visits s source v) ∧ v.subject = .stmt loop.stmt ∧
      Corresponds (fun p => points p ∨ Executes s fuel source p) v m ∧
      ∃ place, Coincides m (execute n loop.stmt) (copy.machine v m) (copy.run n) place := by
  subst hcopy
  have hnext := h.unit fuel source
  have haccounted := hnext.ordered.accounted _ (.inr hp)
  obtain ⟨-, hs, ctx, scopes, os, hat, -, hbound, hproper, v, hv, hsub, hos, rfl⟩ := h.fine hp
  refine ⟨v, hv, hsub, hat.stands.corresponds hos rfl, ?_⟩
  obtain ⟨hregular, -⟩ := hnext.regular hv
  have hnodup := hnext.nodup hv
  rw [Visit.Regular, hsub] at hregular
  rw [hsub] at hnodup
  obtain ⟨hlifted, hold⟩ := loop.copied hproper hbound ⟨hat.nested, hregular.2.outside⟩ hnodup
    fun i hi => h.unused hp hi
  have hm : Machine.Lifted m.distances _ (.identity m.heap.scopes.size) m _ :=
    Machine.lifted_identity haccounted hs (hp.sameTables.natives ▸ hfixed)
      fun w hw i hi => hold i (hnext.settled.known w hw i hi)
  have hc := aligned_identity haccounted hat.stands.lies.ne_nil
  exact (matches_counting n hlifted hm hc).coincides

end Treewalk

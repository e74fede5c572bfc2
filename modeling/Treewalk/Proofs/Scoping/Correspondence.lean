import Mathlib
import Treewalk.Proofs.Scoping.History

namespace Treewalk

open Scopes

def Expr.occurrence? : Expr → Option Ref
  | .name ref | .receiver ref | .inherited ref _ => some ref
  | _ => none

section Correspondence

variable (points : Point → Prop)

/-- The machine is in as many scopes as are open at a place, each made for the construct that opens
its scope there, and around them is the global one. -/
structure Corresponds (v : Visit) (m : Machine) : Prop where
  depth : (m.heap.chain m.current).length = v.state.scopes.length + 1
  globals : (m.heap.chain m.current).getLast? = some m.globals
  made : List.Forall₂ (Made points) (m.heap.chain m.current).dropLast v.openers

/-- An occurrence with a distance is bound that many scopes out, in the scope made for the innermost
construct whose scope had the name when the occurrence was resolved. -/
def BoundAt (v : Visit) (m : Machine) (ref : Ref) : Prop :=
  ∀ d, m.distances[ref.id]? = some d → distance v.state.scopes ref.token.lexeme = some d ∧
    ∃ s o, (m.heap.chain m.current)[d]? = some s ∧ v.openers[d]? = some o ∧ Made points s o ∧
      (m.heap.binding? s ref.token.lexeme).isSome

end Correspondence

structure Reads (m : Machine) (ref : Ref) (e : Expr) : Prop where
  bound : (m.distances[ref.id]?).isSome → ∃ v, ∀ n, evaluate (n + 1) e m = .ok v m
  global : m.distances[ref.id]? = none → ∀ n, evaluate (n + 1) e m =
    match m.heap.binding? m.globals ref.token.lexeme with
    | some v => .ok v m
    | none => .error (.fault (Run.undefined ref.token)) m

/-- How an occurrence is evaluated. A superclass is always there. -/
def Answers (m : Machine) : Expr → Prop
  | .name ref => Reads m ref (.name ref)
  | .receiver ref => Reads m ref (.receiver ref)
  | .inherited ref method => ∀ n token m',
      evaluate n (.inherited ref method) m ≠ .error (.fault (.runtime .superOutsideClass token)) m' ∧
      evaluate n (.inherited ref method) m ≠ .error (.fault (.runtime .invalidSuperBinding token)) m'
  | _ => True

variable {points : Point → Prop} {seen : Visit → Prop} {m : Machine} {v : Visit} {e : Expr}
  {ref : Ref}

theorem Lies.made {made : ScopeId → Opener → Prop} {h : Heap} (hl : Lies made h g ids scopes os) :
    List.Forall₂ made ids.dropLast os := by
  induction hl with
  | globals => exact .nil
  | inside _ _ hm hl ih =>
    rw [List.dropLast_cons_of_ne_nil hl.ne_nil]
    exact .cons hm ih

theorem Stands.corresponds (h : Stands (Made points) m scopes os) (hos : v.openers = os)
    (hlen : v.state.scopes.length = scopes.length) : Corresponds points v m :=
  ⟨hlen ▸ h.lies.length, h.lies.getLast?, hos ▸ h.lies.made⟩

theorem At.ready?_occurrence (hat : At points m cls scopes os) (hb : e.Bound m.distances cls scopes)
    (he : e.occurrence? = some ref) : m.distances[ref.id]? = distance scopes ref.token.lexeme ∧
      ∀ d, distance scopes ref.token.lexeme = some d →
        ready? scopes d ref.token.lexeme = some true := by
  cases e with
  | name r =>
    cases he
    exact ⟨hb.2.1, fun d hd => hat.stands.ready?_eq hd hb.2.2⟩
  | receiver r =>
    cases he
    refine ⟨hb.2, fun d hd => hat.stands.ready?_eq hd ?_⟩
    rw [hb.1]
    exact hat.receiver
  | inherited r method =>
    cases he
    obtain ⟨rfl, hlexeme, hdist⟩ := hb
    refine ⟨hdist, fun d hd => ?_⟩
    obtain ⟨k, hk, hentry, -⟩ := hat.nested
    rw [hlexeme] at hd ⊢
    rw [show distance scopes Keyword.superKw.spelling = some (k + 1) from hk] at hd
    cases hd
    exact hentry
  | _ => cases he

theorem At.boundAt (hat : At points m cls scopes os) (hb : e.Bound m.distances cls scopes)
    (he : e.occurrence? = some ref) (hos : v.openers = os)
    (hdist : distance v.state.scopes ref.token.lexeme = distance scopes ref.token.lexeme) :
    BoundAt points v m ref := by
  intro d hd
  obtain ⟨hD, hready⟩ := hat.ready?_occurrence hb he
  rw [hD] at hd
  obtain ⟨s, o, hs, ho, hm, -, hbind⟩ := hat.stands.lies.entry (hready d hd)
  exact ⟨hdist.trans hd, s, o, hs, hos ▸ ho, hm, hbind⟩

theorem Heap.lookup?_globals (hs : Sound (Made points) seen m) (name : String) :
    m.heap.lookup? m.globals name = m.heap.binding? m.globals name := by
  rw [Heap.lookup?, hs.globals, List.findSome?_cons]
  cases m.heap.binding? m.globals name <;> rfl

theorem At.reads (hs : Sound (Made points) seen m) (hat : At points m cls scopes os)
    (hb : e.Bound m.distances cls scopes) (he : e.occurrence? = some ref)
    (heval : ∀ n, evaluate (n + 1) e m = Run.read ref m) : Reads m ref e := by
  obtain ⟨hD, hready⟩ := hat.ready?_occurrence hb he
  refine ⟨fun hsome => ?_, fun hnone n => ?_⟩
  · obtain ⟨d, hd⟩ := Option.isSome_iff_exists.mp hsome
    obtain ⟨s, v, -, -, hl⟩ := hat.stands.lookupAt? (hready d (hD ▸ hd))
    refine ⟨v, fun n => ?_⟩
    simp only [heval, Run.read, Machine.find?, hd, hl]
  · have hfind : m.find? ref = m.heap.binding? m.globals ref.token.lexeme := by
      rw [Machine.find?, hnone]
      exact Heap.lookup?_globals hs _
    cases hb : m.heap.binding? m.globals ref.token.lexeme with
    | none => simp only [heval, Run.read, hfind, hb]
    | some v => simp only [heval, Run.read, hfind, hb]

theorem At.answers (hs : Sound (Made points) seen m) (hat : At points m cls scopes os)
    (hb : e.Bound m.distances cls scopes) : Answers m e := by
  cases e with
  | name ref => exact hat.reads hs hb rfl fun _ => rfl
  | receiver ref => exact hat.reads hs hb rfl fun _ => rfl
  | inherited ref method =>
    intro n token m'
    obtain ⟨rfl, hlexeme, hdist⟩ := hb
    obtain ⟨d, parent, receiver, hd, hsuper, hthis⟩ := hat.superclass hs
    rw [hlexeme, show distance scopes Keyword.superKw.spelling = some (d + 1) from hd] at hdist
    cases n with
    | zero => constructor <;> intro h <;> cases h
    | succ n =>
      rw [evaluate, inherited_eq hdist hsuper hthis]
      cases m.heap.method? parent method.lexeme <;> constructor <;> intro h <;> cases h
  | _ => trivial

theorem SeenExpr.visit (h : SeenExpr seen e scopes os) : ∃ v, seen v ∧ v.subject = .expr e ∧
    v.openers = os ∧ v.state.scopes.length = scopes.length ∧ ∀ ref, e.occurrence? = some ref →
      distance v.state.scopes ref.token.lexeme = distance scopes ref.token.lexeme := by
  obtain ⟨v, hv, hsub, hos, rfl⟩ | ⟨ref, name, rfl, hne, v, hv, hsub, hos, hscopes⟩ := h
  · exact ⟨v, hv, hsub, hos, rfl, fun _ _ => rfl⟩
  · refine ⟨v, hv, hsub, hos, hscopes ▸ length_define name scopes, ?_⟩
    rintro _ ⟨⟩
    rw [hscopes, distance_define_of_ne hne.symm]

/-- At every point of every unit of a session, the scopes that the machine is in are those that were
open when the code of the point was resolved, and every occurrence is found where its distance
says. The host functions are any that are pure. -/
theorem scopes_correspond {s : Session} (h : History s points seen)
    (hp : Executes s fuel source p) :
    (∀ stmt, p.code = .stmt stmt → ∃ v, (seen v ∨ Visits s source v) ∧ v.subject = .stmt stmt ∧
      Corresponds (fun p => points p ∨ Executes s fuel source p) v p.machine) ∧
    ∀ e, p.code = .expr e → (∃ v, (seen v ∨ Visits s source v) ∧ v.subject = .expr e ∧
      Corresponds (fun p => points p ∨ Executes s fuel source p) v p.machine ∧
      ∀ ref, e.occurrence? = some ref →
        BoundAt (fun p => points p ∨ Executes s fuel source p) v p.machine ref) ∧
      Answers p.machine e := by
  obtain ⟨-, hs, hplaced⟩ := h.fine hp
  refine ⟨fun stmt hcode => ?_, fun e hcode => ?_⟩
  · rw [hcode] at hplaced
    obtain ⟨ctx, scopes, os, hat, -, -, -, v, hv, hsub, hos, rfl⟩ := hplaced
    exact ⟨v, hv, hsub, hat.stands.corresponds hos rfl⟩
  · rw [hcode] at hplaced
    obtain ⟨cls, scopes, os, hat, hb, hseen⟩ := hplaced
    obtain ⟨v, hv, hsub, hos, hlen, hdist⟩ := hseen.visit
    exact ⟨⟨v, hv, hsub, hat.stands.corresponds hos hlen, fun ref he =>
      hat.boundAt hb he hos (hdist ref he)⟩, hat.answers hs hb⟩

theorem scopes_correspond_block : ∃ (p : Point) (ref : Ref),
    Executes (.new .unlimited 0) 10 "\x7bvar a; print a;\x7d" p ∧ p.code = .expr (.name ref) ∧
      p.machine.distances[ref.id]? = some 0 ∧ Reads p.machine ref (.name ref) := by
  have hparse : ((Session.new .unlimited 0).parse "\x7bvar a; print a;\x7d").1 =
      [.block [.var ⟨.identifier, "a", 1⟩ none, .print (.name ⟨0, ⟨.identifier, "a", 1⟩⟩)]] := by
    cbv
  have hstart : Executes (.new .unlimited 0) 10 "\x7bvar a; print a;\x7d" ⟨10, .stmt
      (.block [.var ⟨.identifier, "a", 1⟩ none, .print (.name ⟨0, ⟨.identifier, "a", 1⟩⟩)]),
      ((Session.new .unlimited 0).prepared "\x7bvar a; print a;\x7d").machine⟩ := by
    refine .start ⟨by decide +kernel, by decide +kernel⟩ ?_
    rw [hparse]
    exact .head
  have hp := (((hstart.call .block).call (.rest rfl)).call .first).call .print
  exact ⟨_, _, hp, rfl, by decide +kernel, ((scopes_correspond (.new .unlimited 0) hp).2 _ rfl).2⟩

end Treewalk

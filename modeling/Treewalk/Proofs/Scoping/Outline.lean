import Mathlib.Data.List.Basic
import Mathlib.Data.List.Induction
import Treewalk.Tree

/-!
A program as one line of marks, in the order of its text: where scopes open and close, where names
are declared and where they occur. The scopes around a place, and what they declare before it, are
read off the marks before the place; `trail` keeps them in a stack, one list of names for each.
-/

namespace Treewalk

/-- What matters of a program for its scopes. A `this` outside of all classes strays. -/
inductive Mark
  | opens
  | closes
  | declares (name : String)
  | mentions (ref : Ref)
  | strays (ref : Ref)

namespace Mark

def step : Nat → Mark → Option Nat
  | n, opens => some (n + 1)
  | 0, closes => none
  | n + 1, closes => some n
  | n, declares _ | n, mentions _ | n, strays _ => some n

def depth (marks : List Mark) : Option Nat := marks.foldlM step 0

def enclosed (marks : List Mark) : List Mark := opens :: (marks ++ [closes])

/-- A scope around the end of the marks `before`: the marks inside it so far, which leave `d` other
scopes open. -/
def Encloses (before inside : List Mark) (d : Nat) : Prop :=
  ∃ outer, before = outer ++ opens :: inside ∧ depth inside = some d

def Declares (inside : List Mark) (name : String) : Prop :=
  ∃ first rest, inside = first ++ declares name :: rest ∧ depth first = some 0

def Declared (before : List Mark) (name : String) (d : Nat) : Prop :=
  ∃ inside, Encloses before inside d ∧ Declares inside name

def Addressed (before : List Mark) (name : String) (d : Nat) : Prop :=
  Declared before name d ∧ ∀ d' < d, ¬ Declared before name d'

theorem depth_append_singleton (marks : List Mark) (m : Mark) :
    depth (marks ++ [m]) = (depth marks).bind (step · m) := by
  simp [depth, List.foldlM_append]

theorem encloses_append_singleton : Encloses (before ++ [m]) inside d ↔
    m = opens ∧ inside = [] ∧ d = 0 ∨
      ∃ inner k, inside = inner ++ [m] ∧ Encloses before inner k ∧ step k m = some d := by
  constructor
  · rintro ⟨outer, heq, hd⟩
    obtain rfl | ⟨inner, m', rfl⟩ := List.eq_nil_or_concat' inside
    · obtain ⟨-, hm⟩ := List.append_inj' heq rfl
      cases hm
      cases hd
      exact .inl ⟨rfl, rfl, rfl⟩
    · rw [← List.cons_append, ← List.append_assoc] at heq
      obtain ⟨rfl, hm⟩ := List.append_inj' heq rfl
      cases hm
      rw [depth_append_singleton, Option.bind_eq_some_iff] at hd
      obtain ⟨k, hk, hd⟩ := hd
      exact .inr ⟨inner, k, rfl, ⟨outer, rfl, hk⟩, hd⟩
  · rintro (⟨rfl, rfl, rfl⟩ | ⟨inner, k, rfl, ⟨outer, rfl, hk⟩, hd⟩)
    · exact ⟨before, rfl, rfl⟩
    · exact ⟨outer, by simp, by rw [depth_append_singleton, hk]; exact hd⟩

theorem declares_append_singleton : Declares (inside ++ [m]) name ↔
    Declares inside name ∨ m = declares name ∧ depth inside = some 0 := by
  constructor
  · rintro ⟨first, rest, heq, hd⟩
    obtain rfl | ⟨rest, m', rfl⟩ := List.eq_nil_or_concat' rest
    · obtain ⟨rfl, hm⟩ := List.append_inj' heq rfl
      cases hm
      exact .inr ⟨rfl, hd⟩
    · rw [← List.cons_append, ← List.append_assoc] at heq
      obtain ⟨rfl, -⟩ := List.append_inj' heq rfl
      exact .inl ⟨first, rest, rfl, hd⟩
  · rintro (⟨first, rest, rfl, hd⟩ | ⟨rfl, hd⟩)
    · exact ⟨first, rest ++ [m], by simp, hd⟩
    · exact ⟨inside, [], rfl, hd⟩

theorem not_declares_nil : ¬ Declares [] name := by
  rintro ⟨first, rest, heq, -⟩
  simp at heq

theorem declared_append_singleton : Declared (before ++ [m]) name d ↔
    ∃ k, step k m = some d ∧
      (Declared before name k ∨
        m = declares name ∧ k = 0 ∧ ∃ inside, Encloses before inside 0) := by
  constructor
  · rintro ⟨inside, hin, hn⟩
    obtain ⟨-, rfl, -⟩ | ⟨inner, k, rfl, he, hk⟩ := encloses_append_singleton.mp hin
    · exact absurd hn not_declares_nil
    · refine ⟨k, hk, ?_⟩
      obtain hn | ⟨rfl, hd⟩ := declares_append_singleton.mp hn
      · exact .inl ⟨inner, he, hn⟩
      · obtain ⟨outer, rfl, hk⟩ := he
        cases hk.symm.trans hd
        exact .inr ⟨rfl, rfl, inner, outer, rfl, hd⟩
  · rintro ⟨k, hk, ⟨inside, he, hn⟩ | ⟨rfl, rfl, inside, he⟩⟩
    · exact ⟨inside ++ [m], encloses_append_singleton.mpr (.inr ⟨inside, k, rfl, he, hk⟩),
        declares_append_singleton.mpr (.inl hn)⟩
    · refine ⟨_, encloses_append_singleton.mpr (.inr ⟨inside, 0, rfl, he, hk⟩),
        declares_append_singleton.mpr (.inr ⟨rfl, ?_⟩)⟩
      obtain ⟨outer, -, hd⟩ := he
      exact hd

def push : Mark → List (List String) → List (List String)
  | opens, stack => [] :: stack
  | closes, stack => stack.tail
  | declares name, names :: outer => (name :: names) :: outer
  | declares _, [] => []
  | mentions _, stack | strays _, stack => stack

def trail (marks : List Mark) (stack : List (List String)) : List (List String) :=
  marks.foldl (fun stack m => m.push stack) stack

@[simp] theorem trail_nil (stack : List (List String)) : trail [] stack = stack := rfl

@[simp] theorem trail_cons (m : Mark) (marks : List Mark) (stack : List (List String)) :
    trail (m :: marks) stack = trail marks (m.push stack) := rfl

@[simp] theorem trail_append (marks more : List Mark) (stack : List (List String)) :
    trail (marks ++ more) stack = trail more (trail marks stack) :=
  List.foldl_append

theorem lt_length_push {stack : List (List String)} : d < (push m stack).length ↔
    m = opens ∧ d = 0 ∨ ∃ k, k < stack.length ∧ step k m = some d := by
  cases m with
  | opens => cases d <;> simp [push, step]
  | closes =>
    simp only [push, List.length_tail, reduceCtorEq, false_and, false_or]
    constructor
    · exact fun hd => ⟨d + 1, by omega, rfl⟩
    · rintro ⟨_ | k, hk, hs⟩
      · cases hs
      · cases hs
        omega
  | declares => cases stack <;> simp [push, step]
  | mentions | strays => simp [push, step]

theorem mem_push {stack : List (List String)} :
    (∃ names, (push m stack)[d]? = some names ∧ name ∈ names) ↔ ∃ k, step k m = some d ∧
      ((∃ names, stack[k]? = some names ∧ name ∈ names) ∨
        m = declares name ∧ k = 0 ∧ 0 < stack.length) := by
  cases m with
  | opens => cases d <;> simp [push, step]
  | closes =>
    simp only [push, List.getElem?_tail, reduceCtorEq, false_and, or_false]
    constructor
    · exact fun h => ⟨d + 1, rfl, h⟩
    · rintro ⟨_ | k, hk, h⟩
      · cases hk
      · cases hk
        exact h
  | declares other => cases stack <;> cases d <;> simp [push, step, eq_comm, or_comm]
  | mentions | strays => simp [push, step]

theorem lt_length_trail_iff (before : List Mark) :
    d < (trail before []).length ↔ ∃ inside, Encloses before inside d := by
  -- on the last mark, the only one that the stack has seen and its earlier states have not
  induction before using List.reverseRecOn generalizing d with
  | nil => simp [Encloses]
  | append_singleton before m ih =>
    rw [trail_append, trail_cons, trail_nil, lt_length_push]
    simp only [encloses_append_singleton, ih]
    constructor
    · rintro (⟨hm, hd⟩ | ⟨k, ⟨inner, he⟩, hk⟩)
      · exact ⟨[], .inl ⟨hm, rfl, hd⟩⟩
      · exact ⟨_, .inr ⟨inner, k, rfl, he, hk⟩⟩
    · rintro ⟨_, ⟨hm, -, hd⟩ | ⟨inner, k, -, he, hk⟩⟩
      · exact .inl ⟨hm, hd⟩
      · exact .inr ⟨k, ⟨inner, he⟩, hk⟩

theorem mem_trail_iff (before : List Mark) :
    (∃ names, (trail before [])[d]? = some names ∧ name ∈ names) ↔ Declared before name d := by
  induction before using List.reverseRecOn generalizing d with
  | nil => simp [Declared, Encloses]
  | append_singleton before m ih =>
    rw [trail_append, trail_cons, trail_nil, mem_push, declared_append_singleton]
    simp only [ih, lt_length_trail_iff]

def find (stack : List (List String)) (name : String) : Option Nat :=
  stack.findIdx? (name ∈ ·)

theorem find_trail_eq_some_iff : find (trail before []) name = some d ↔
    Addressed before name d := by
  simp only [find, List.findIdx?_eq_some_iff_getElem, Addressed, ← mem_trail_iff, decide_eq_true_eq]
  constructor
  · rintro ⟨hd, hn, hmin⟩
    refine ⟨⟨_, List.getElem?_eq_getElem hd, hn⟩, fun d' hlt => ?_⟩
    rintro ⟨names, hget, hn'⟩
    rw [List.getElem?_eq_getElem (Nat.lt_trans hlt hd)] at hget
    exact hmin d' hlt (Option.some.inj hget ▸ hn')
  · rintro ⟨⟨names, hget, hn⟩, hmin⟩
    obtain ⟨hd, rfl⟩ := List.getElem?_eq_some_iff.mp hget
    exact ⟨hd, hn, fun d' hlt hn' =>
      hmin d' hlt ⟨_, List.getElem?_eq_getElem (Nat.lt_trans hlt hd), hn'⟩⟩

theorem find_trail_eq_none_iff : find (trail before []) name = none ↔
    ∀ d, ¬ Declared before name d := by
  simp only [find, List.findIdx?_eq_none_iff, ← mem_trail_iff, decide_eq_false_iff_not]
  constructor
  · rintro h d ⟨names, hget, hn⟩
    exact h names (List.mem_of_getElem? hget) hn
  · rintro h names hmem hn
    obtain ⟨d, hget⟩ := List.mem_iff_getElem?.mp hmem
    exact h d ⟨names, hget, hn⟩

end Mark

open Mark

mutual

def Expr.outline (inClass : Bool) : Expr → List Mark
  | .literal _ => []
  | .group e | .unary _ e | .get e _ => e.outline inClass
  | .binary l _ r | .logical l _ r | .set l _ r => l.outline inClass ++ r.outline inClass
  | .name ref | .inherited ref _ => [mentions ref]
  | .assign ref e => mentions ref :: e.outline inClass
  | .call callee _ args => callee.outline inClass ++ Expr.outlineAll inClass args
  | .receiver ref => [if inClass then mentions ref else strays ref]

def Expr.outlineAll (inClass : Bool) : List Expr → List Mark
  | [] => []
  | e :: es => e.outline inClass ++ Expr.outlineAll inClass es

end

def Expr.outlineOption (inClass : Bool) : Option Expr → List Mark
  | none => []
  | some e => e.outline inClass

mutual

def Stmt.outline (inClass : Bool) : Stmt → List Mark
  | .expr e | .print e => e.outline inClass
  | .var name init => declares name.lexeme :: Expr.outlineOption inClass init
  | .block body => enclosed (Stmt.outlineAll inClass body)
  | .ifThen c t | .loop c t => c.outline inClass ++ t.outline inClass
  | .ifElse c t e => c.outline inClass ++ (t.outline inClass ++ e.outline inClass)
  | .function decl => declares decl.name.lexeme :: Stmt.outlineFunction inClass decl
  | .ret _ value => Expr.outlineOption inClass value
  | .classDecl name none methods =>
    declares name.lexeme :: enclosed (declares "this" :: Stmt.outlineMethods methods)
  | .classDecl name (some e) methods => declares name.lexeme :: (e.outline true ++
      enclosed (declares "super" :: enclosed (declares "this" :: Stmt.outlineMethods methods)))

def Stmt.outlineAll (inClass : Bool) : List Stmt → List Mark
  | [] => []
  | s :: ss => s.outline inClass ++ Stmt.outlineAll inClass ss

def Stmt.outlineFunction (inClass : Bool) : FunctionDecl Stmt → List Mark
  | ⟨_, params, body⟩ =>
    enclosed (params.map (declares ·.lexeme) ++ Stmt.outlineAll inClass body)

def Stmt.outlineMethods : List (FunctionDecl Stmt) → List Mark
  | [] => []
  | m :: ms => Stmt.outlineFunction true m ++ Stmt.outlineMethods ms

end

end Treewalk

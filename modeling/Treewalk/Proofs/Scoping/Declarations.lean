import Treewalk.Proofs.Scoping.Receivers

namespace Treewalk

def Subject.PartOf (body : List Stmt) : Subject → Prop
  | .stmt s => s ∈ body ∨ s.declared? = none
  | .stmts ss => ss ⊆ body
  | _ => True

def Visit.Housed (v : Visit) : Prop :=
  ∀ body, v.openers.head? = some (.block body) → v.subject.PartOf body

theorem Resolves.housed (h : Resolves v w) (hreg : v.Regular) (hv : v.Housed) : w.Housed := by
  intro body hbody
  cases h with
  | block =>
    cases hbody
    exact List.Subset.refl body
  | ifThenBranch | loopBody => exact .inr hreg.1.2.2
  | ifElseThen => exact .inr hreg.1.2.1.2
  | ifElseElse => exact .inr hreg.1.2.2.2
  | first => exact .inl (hv body hbody List.mem_cons_self)
  | rest => exact fun s hs => hv body hbody (List.mem_cons_of_mem _ hs)
  | body => cases hbody
  | _ => trivial

section History

variable {points : Point → Prop} {seen : Visit → Prop} {s : Session}

theorem Visits.housed (h : Visits s source v) : v.Housed := by
  induction h with
  | start => exact fun _ hbody => by cases hbody
  | step hv hr ih => exact hr.housed hv.regular.1 ih

theorem History.housed (h : History s points seen) (hv : seen v) : v.Housed := by
  induction h with
  | new => exact hv.elim
  | native _ _ ih => exact ih hv
  | unit _ _ _ ih => exact hv.elim ih Visits.housed

end History

variable {points : Point → Prop} {seen : Visit → Prop} {g h : Heap} {p q : Point} {t : ScopeId}
  {o o' : Opener} {body : List Stmt} {name : String}

theorem Lies.not_inner {made : ScopeId → Opener → Prop} (hl : Lies made h t (h.chain s) scopes []) :
    ¬ h.Inner s := by
  rw [Heap.Inner]
  generalize h.chain s = ids at hl
  cases hl
  exact Nat.lt_irrefl 1

theorem Opens.adds (h : Opens q t o) : ∃ h parent b, Adds q h parent b ∧ t = h.nextScope := by
  cases h with
  | block => exact ⟨_, _, _, .block, rfl⟩
  | frame => exact ⟨_, _, _, .frame, rfl⟩
  | superclass he => exact ⟨_, _, _, .superclass he, (Heap.nextScope_define ..).symm⟩
  | method ho hobj hfield hf => exact ⟨_, _, _, .receiver (.property ho hobj hfield hf), rfl⟩
  | inherited hd hsuper hthis hf => exact ⟨_, _, _, .receiver (.inherited hd hsuper hthis hf), rfl⟩
  | initializer hf ha => exact ⟨_, _, _, .receiver (.construct hf ha), rfl⟩

namespace Ordered

theorem of_made_block (ho : Ordered points seen g) (hm : Made points t (.block body)) :
    ∃ n m, points ⟨n + 1, .stmt (.block body), m⟩ ∧ t = m.heap.nextScope ∧
      m.heap.chain m.current ≠ [] ∧ ∀ q h parent b, points q → Adds q h parent b →
        h.nextScope = t → q = ⟨n + 1, .stmt (.block body), m⟩ ∧ b = .empty := by
  obtain ⟨_, hp, hopens⟩ := hm
  cases hopens with
  | @block n _ m =>
    obtain ⟨-, -, ctx, scopes, os, hat, -⟩ := ho.fine _ hp
    refine ⟨n, m, hp, rfl, hat.stands.lies.ne_nil, fun q h parent b hq ha hs => ?_⟩
    obtain ⟨rfl, -, -, rfl⟩ := ho.unique hq hp ha .block hs
    exact ⟨rfl, rfl⟩

theorem opener_unique (ho : Ordered points seen g) (hm : Made points t (.block body))
    (hm' : Made points t o) : o = .block body := by
  obtain ⟨n, m, -, -, -, hunique⟩ := ho.of_made_block hm
  obtain ⟨q, hq, hopens⟩ := hm'
  obtain ⟨h, parent, b, ha, hs⟩ := hopens.adds
  obtain ⟨rfl, -⟩ := hunique q h parent b hq ha hs.symm
  cases hopens
  rfl

theorem housed (ho : Ordered points seen g) (hseen : ∀ v, seen v → v.Housed)
    (hm : Made points m.current (.block body)) (hp : points ⟨n, .stmt stmt, m⟩) :
    stmt ∈ body ∨ stmt.declared? = none := by
  obtain ⟨-, -, ctx, scopes, os, hat, -, -, -, v, hv, hsub, rfl, -⟩ := ho.fine _ hp
  obtain ⟨n, m₀, hq, hs, hparent, -⟩ := ho.of_made_block hm
  have hlies := hat.stands.lies
  have hinner : m.heap.Inner m.current :=
    hs ▸ ho.inner hp hq .block hparent (hs ▸ hlies.ne_nil)
  cases hos : v.openers with
  | nil =>
    rw [hos] at hlies
    exact absurd hinner hlies.not_inner
  | cons o os =>
    obtain ⟨s, hs, hmade, -⟩ := hlies.made_at (i := 0) (by rw [hos]; rfl)
    rw [Heap.head?_chain hlies.ne_nil] at hs
    cases hs
    cases ho.opener_unique hm hmade
    have hpart := hseen v hv body (by rw [hos]; rfl)
    rwa [hsub] at hpart

end Ordered

end Treewalk

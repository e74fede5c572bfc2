import Treewalk.Proofs.Looping.Running

namespace Treewalk

open Run

section Lifted

variable (D D' : Distances)

inductive LiftedRound : Option Expr → Stmt → Option Expr → Stmt → Prop
  | bare : body.Lifted D D' [] body' → LiftedRound none body none body'
  | step : body.Lifted D D' [true] body' → e.Lifted D D' [true] e' →
      LiftedRound (some e) body (some e') body'

structure Counting.Lifted (loop loop' : Counting) : Prop where
  start : Option.Rel (Stmt.Lifted D D' [false]) loop.start loop'.start
  test : loop.test.Lifted D D' [] loop'.test
  round : LiftedRound D D' loop.step loop.body loop'.step loop'.body

end Lifted

def Counting.repeated (step : Option Expr) (body : Stmt) : Stmt :=
  match step with
  | none => body
  | some e => .block [body, .expr e]

variable {D D' : Distances} {μ : Placing} {m m' : Machine} {α : Type}

theorem Placing.Aligned.flatten (h : Placing.Aligned μ [false] ids ids') :
    Placing.Aligned μ [] ids ids' := by
  cases h with
  | kept hp h =>
    cases h with
    | plain _ hids => exact .plain nofun (.cons hp hids)

theorem grows_gap (h h' : Heap) (parent : ScopeId) :
    μ.Grows h h' (μ.push none) (h.addChild parent .empty).2 h' :=
  .push none (Heap.extends_addChild _ h parent .empty) (.refl _ h')

theorem lifted_inside (hm : m.Lifted D D' μ m') :
    (m.inside m.current .empty).Lifted D D' (μ.push none) m' :=
  ⟨hm.heap.addGap m.current, hm.natives, hm.fixed, hm.home.grow (grows_gap _ _ m.current),
    hm.distances, hm.distances', hm.sink⟩

theorem aligned_inside (hm : m.Lifted D D' μ m') (hc : m.Aligned μ gaps m') :
    (m.inside m.current .empty).Aligned (μ.push none) (true :: gaps) m' := by
  rw [Machine.Aligned, Machine.inside, Heap.chain_addChild]
  refine .gap (Placing.omits_push_iff.mpr (.inl ⟨hm.heap.size.symm, rfl⟩)) ?_
  exact hc.mono (grows_gap m.heap m'.heap m.current).places

theorem matches_gap {x x' : Run α}
    (hx : Matches D D' (μ.push none) (m.inside m.current .empty) m' equal
      (x (m.inside m.current .empty)) (x' m')) :
    Matches D D' μ m m' equal ((do within (← newScope (← current) .empty) x) m) (x' m') := by
  -- outside again, the added scope is one more that the other machine does not have
  have hback {μ₁ : Placing} {m₁ m₁' : Machine}
      (h : Tracks D D' (μ.push none) (m.inside m.current .empty) m' μ₁ m₁ m₁') :
      Tracks D D' μ m m' μ₁ { m₁ with current := m.current } m₁' :=
    ⟨(grows_gap _ _ m.current).trans h.grows, rfl, h.current', lifted_move h.lifted _ m₁'.current⟩
  rw [bind_of_ok (x := current) rfl, bind_of_ok (x := newScope _ _) rfl]
  cases hr : x (m.inside m.current .empty) with
  | ok a m₁ =>
    rw [within_of_ok hr]
    generalize x' m' = r' at hx ⊢
    cases hr ▸ hx with
    | ok ha h => exact .ok ha (hback h)
  | error e m₁ =>
    rw [within_of_error hr]
    generalize x' m' = r' at hx ⊢
    cases hr ▸ hx with
    | error h => exact .error (hback h)

theorem executeAll_singleton (n : Nat) (s : Stmt) :
    executeAll (n + 2) [s] = execute (n + 1) s := by
  funext m
  change (execute (n + 1) s >>= _) m = _
  simp only [Bind.bind, EStateM.bind]
  cases execute (n + 1) s m with
  | ok completion m₁ =>
    cases completion <;> rfl
  | error e m₁ => rfl

theorem matches_round (n : Nat) (hl : LiftedRound D D' step body step' body')
    (hm : m.Lifted D D' μ m') (hc : m.Aligned μ [] m') :
    Matches D D' μ m m' equal (execute n (Counting.repeated step body) m)
      (round n step' body' m') := by
  cases hl with
  | bare hb => exact matches_execute n hb hm hc
  | step hb he =>
    have hm₀ := lifted_inside hm
    have hc₀ := aligned_inside hm hc
    -- the block and its list take fuel of their own
    match n with
    | 0 => exact matches_exhausted hm
    | 1 => exact matches_gap (matches_exhausted hm₀)
    | n + 2 =>
      refine matches_gap ((matches_execute n hb hm₀ hc₀).then fun completion μ₁ m₁ m₁' h₁ => ?_)
      cases completion with
      | returned v => exact matches_pure h₁.lifted _
      | normal =>
        match n with
        | 0 | 1 => exact matches_exhausted h₁.lifted
        | n + 2 =>
          change Matches _ _ _ _ _ _ (executeAll (n + 2) [.expr _] m₁) _
          rw [executeAll_singleton]
          exact (matches_evaluate n he h₁.lifted (h₁.aligned hc₀)).then
            fun _ _ _ _ h₂ => matches_pure h₂.lifted _

theorem matches_rounds (n : Nat) {c c' : Expr} (ht : c.Lifted D D' [] c')
    (hl : LiftedRound D D' step body step' body') (hm : m.Lifted D D' μ m')
    (hc : m.Aligned μ [] m') :
    Matches D D' μ m m' equal (iterate n c (Counting.repeated step body) m)
      (rounds n c' step' body' m') := by
  induction n generalizing μ m m' with
  | zero => exact matches_exhausted hm
  | succ n ih =>
    refine (matches_evaluate n ht hm hc).then fun v _ _ _ h₁ => .ite ?_ (matches_pure h₁.lifted _)
    refine (matches_round n hl h₁.lifted (h₁.aligned hc)).then fun completion _ _ _ h₂ => ?_
    cases completion with
    | normal => exact ih h₂.lifted (h₂.aligned (h₁.aligned hc))
    | returned v => exact matches_pure h₂.lifted _

theorem Counting.stmt_eq (loop : Counting) : loop.stmt = match loop.start with
    | none => .loop loop.test (repeated loop.step loop.body)
    | some s => .block [s, .loop loop.test (repeated loop.step loop.body)] := rfl

theorem matches_counting (n : Nat) {loop loop' : Counting} (hl : loop.Lifted D D' loop')
    (hm : m.Lifted D D' μ m') (hc : m.Aligned μ [] m') :
    Matches D D' μ m m' equal (execute n loop.stmt m) (loop'.run n m') := by
  obtain _ | n := n
  · exact matches_exhausted hm
  have hstart := hl.start
  rw [loop.stmt_eq, Counting.run]
  generalize loop.start = start, loop'.start = start' at hstart ⊢
  cases hstart with
  | none => exact matches_rounds n hl.test hl.round hm hc
  | some hs =>
    refine (matches_current hm).bind fun s s' μ₁ m₁ m₁' hcurrent h₁ => ?_
    obtain ⟨rfl, rfl⟩ := hcurrent
    refine (matches_newScope h₁.lifted (h₁.aligned hc) .empty).bind fun s s' μ₂ m₂ m₂' hscope h₂ => ?_
    have hm₂ := lifted_move h₂.lifted s s'
    refine matches_within ?_
    obtain _ | n := n
    · exact matches_exhausted hm₂
    refine (matches_execute n hs hm₂ hscope).then fun completion μ₃ m₃ m₃' h₃ => ?_
    cases completion with
    | returned v => exact matches_pure h₃.lifted _
    | normal =>
      match n with
      | 0 | 1 => exact matches_exhausted h₃.lifted
      | n + 2 =>
        change Matches _ _ _ _ _ _ (executeAll (n + 2) [.loop loop.test _] m₃) _
        rw [executeAll_singleton]
        exact matches_rounds n hl.test hl.round h₃.lifted (h₃.aligned hscope).flatten

end Treewalk

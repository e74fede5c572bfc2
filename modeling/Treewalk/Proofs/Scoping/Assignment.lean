import Treewalk.Proofs.Scoping.Correspondence

namespace Treewalk

open Scopes Run

variable {points : Point → Prop} {seen : Visit → Prop} {m : Machine} {scopes : List StaticScope}
  {os : List Opener} {name : String} {d : Nat}

theorem Stands.ownerAt?_of_unready (h : Stands (Made points) m scopes os)
    (hd : distance scopes name = some d) (hu : Unready scopes name) :
    m.heap.ownerAt? m.current d name = none := by
  obtain ⟨scope, hhead, hget⟩ := hu
  have hzero : d = 0 := by
    cases scopes with
    | nil => cases hhead
    | cons inner outer =>
      cases hhead
      rw [distance_cons, Bindings.contains, hget] at hd
      cases hd
      rfl
  subst hzero
  rw [Heap.ownerAt?, Option.filter_eq_none_iff]
  intro s hs hb
  have hcur : s = m.current := by
    unfold Heap.chain at hs
    split at hs <;> cases hs
    rfl
  subst hcur
  rw [h.exact scope hhead name hb] at hget
  cases hget

theorem Stands.ownerAt?_of_ready (h : Stands (Made points) m scopes os)
    (hd : distance scopes name = some d) (hu : ¬ Unready scopes name) :
    ∃ s, (m.heap.chain m.current)[d]? = some s ∧ m.heap.ownerAt? m.current d name = some s := by
  obtain ⟨s, o, hs, -, -, -, hb⟩ := h.lies.entry (h.ready?_eq hd hu)
  exact ⟨s, hs, by rw [Heap.ownerAt?, hs, Option.filter_some, if_pos hb]⟩

theorem evaluate_assign {ref : Ref} (hd : m₁.distances[ref.id]? = some d)
    (hv : evaluate n e m = .ok value m₁) : evaluate (n + 1) (.assign ref e) m =
      match m₁.heap.ownerAt? m₁.current d ref.token.lexeme with
      | some t => .ok value { m₁ with heap := m₁.heap.define t ref.token.lexeme value }
      | none => .error (.fault (undefined ref.token)) m₁ := by
  simp only [evaluate, bind, EStateM.bind, hv, Run.assign, Machine.owner?, hd]
  cases m₁.heap.ownerAt? m₁.current d ref.token.lexeme <;> rfl

/-- An assignment whose value is evaluated goes to the scope at its distance, unless its name was
not ready when it was resolved. Then it fails. -/
theorem resolved_assignment {s : Session} (h : History s points seen)
    (hp : Executes s fuel source ⟨n + 1, .expr (.assign ref e), m⟩)
    (hd : m.distances[ref.id]? = some d) (hv : evaluate n e m = .ok value m₁) :
    ∃ v, (seen v ∨ Visits s source v) ∧ v.subject = .expr (.assign ref e) ∧
      distance v.state.scopes ref.token.lexeme = some d ∧
      (Unready v.state.scopes ref.token.lexeme →
        evaluate (n + 1) (.assign ref e) m = .error (.fault (undefined ref.token)) m₁) ∧
      (¬ Unready v.state.scopes ref.token.lexeme → ∃ t, (m.heap.chain m.current)[d]? = some t ∧
        evaluate (n + 1) (.assign ref e) m =
          .ok value { m₁ with heap := m₁.heap.define t ref.token.lexeme value }) := by
  obtain ⟨-, hs, cls, scopes, os, hat, hb, hseen⟩ := h.fine hp
  obtain ⟨v, hvisit, hsub, -, rfl⟩ := hseen.plain nofun
  have he : Evolves _ _ nowhere m m₁ := ((h.ends (hp.call .assign)).of_ok hv).1
  have hst := hat.stands.mono he id
  have hdist : distance v.state.scopes ref.token.lexeme = some d := hb.2.2 ▸ hd
  have heval := evaluate_assign (he.distances ▸ hd) hv
  refine ⟨v, hvisit, hsub, hdist, fun hu => ?_, fun hu => ?_⟩
  · rw [heval, hst.ownerAt?_of_unready hdist hu]
  · obtain ⟨t, ht, howner⟩ := hst.ownerAt?_of_ready hdist hu
    refine ⟨t, ?_, by rw [heval, howner]⟩
    rw [← he.heap.chain m.current hat.stands.lies.ne_nil, ← he.current]
    exact ht

theorem resolved_assignment_block : ∃ (m m₁ : Machine) (ref : Ref) (e : Expr) (v : Visit),
    Executes (.new .unlimited 0) 20 "\x7bvar a; a = nil;\x7d" ⟨16, .expr (.assign ref e), m⟩ ∧
    m.distances[ref.id]? = some 0 ∧ v.subject = .expr (.assign ref e) ∧
    (¬ Unready v.state.scopes ref.token.lexeme → ∃ t, (m.heap.chain m.current)[0]? = some t ∧
      evaluate 16 (.assign ref e) m =
        .ok .nil { m₁ with heap := m₁.heap.define t ref.token.lexeme .nil }) := by
  have hparse : ((Session.new .unlimited 0).parse "\x7bvar a; a = nil;\x7d").1 =
      [.block [.var ⟨.identifier, "a", 1⟩ none,
        .expr (.assign ⟨1, ⟨.identifier, "a", 1⟩⟩ (.literal .nil))]] := by
    cbv
  have hstart : Executes (.new .unlimited 0) 20 "\x7bvar a; a = nil;\x7d" ⟨20, .stmt
      (.block [.var ⟨.identifier, "a", 1⟩ none,
        .expr (.assign ⟨1, ⟨.identifier, "a", 1⟩⟩ (.literal .nil))]),
      ((Session.new .unlimited 0).prepared "\x7bvar a; a = nil;\x7d").machine⟩ := by
    refine .start ⟨by decide +kernel, by decide +kernel⟩ ?_
    rw [hparse]
    exact .head
  have hp := (((hstart.call .block).call (.rest rfl)).call .first).call .expr
  obtain ⟨v, -, hsub, -, -, hready⟩ :=
    resolved_assignment (d := 0) (.new .unlimited 0) hp (by decide +kernel) rfl
  exact ⟨_, _, _, _, v, hp, by decide +kernel, hsub, hready⟩

theorem misses_inside (m : Machine) (ref : Ref) (hd : m.distances[ref.id]? = some 0) :
    evaluate 17 (.assign ref (.literal .nil)) (m.inside m.current .empty) =
      .error (.fault (undefined ref.token)) (m.inside m.current .empty) := by
  have hd' : (m.inside m.current .empty).distances[ref.id]? = some 0 := hd
  have howner : (m.inside m.current .empty).heap.ownerAt? (m.inside m.current .empty).current 0
      ref.token.lexeme = none := by
    simp only [Heap.ownerAt?, Machine.inside, Heap.chain_addChild, List.getElem?_cons_zero]
    rw [Option.filter_some, if_neg]
    simp [Heap.binding?, Heap.addChild, Heap.addScope]
  rw [evaluate_assign hd' rfl, howner]

theorem resolved_assignment_misses : ∃ (m : Machine) (ref : Ref) (e : Expr),
    Executes (.new .unlimited 0) 20 "\x7bvar a = a = nil;\x7d" ⟨17, .expr (.assign ref e), m⟩ ∧
    m.distances[ref.id]? = some 0 ∧ evaluate 16 e m = .ok .nil m ∧
    evaluate 17 (.assign ref e) m = .error (.fault (undefined ref.token)) m := by
  have hparse : ((Session.new .unlimited 0).parse "\x7bvar a = a = nil;\x7d").1 =
      [.block [.var ⟨.identifier, "a", 1⟩
        (some (.assign ⟨1, ⟨.identifier, "a", 1⟩⟩ (.literal .nil)))]] := by
    cbv
  have hstart : Executes (.new .unlimited 0) 20 "\x7bvar a = a = nil;\x7d" ⟨20, .stmt
      (.block [.var ⟨.identifier, "a", 1⟩
        (some (.assign ⟨1, ⟨.identifier, "a", 1⟩⟩ (.literal .nil)))]),
      ((Session.new .unlimited 0).prepared "\x7bvar a = a = nil;\x7d").machine⟩ := by
    refine .start ⟨by decide +kernel, by decide +kernel⟩ ?_
    rw [hparse]
    exact .head
  have hd : ((Session.new .unlimited 0).prepared
      "\x7bvar a = a = nil;\x7d").machine.distances[1]? = some 0 := by
    decide +kernel
  have hp := ((hstart.call .block).call .first).call .var
  exact ⟨_, _, _, hp, hd, rfl, misses_inside _ _ hd⟩

end Treewalk

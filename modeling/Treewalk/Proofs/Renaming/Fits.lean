import Treewalk.Proofs.Renaming.Rename

namespace Treewalk

open Scopes

def Renaming.Keeps (ρ : Renaming) (marked : Bool) (name : String) : Prop :=
  name ≠ ρ.new ∧ ρ.word marked name = name

section Fits

variable (ρ : Renaming)

mutual

def Stmt.Fits (path : List Nat) (marks : List Bool) : Stmt → Prop
  | .expr e | .print e => ρ.new ∉ e.names
  | .var name init => name.lexeme ≠ ρ.new ∧ ρ.new ∉ Expr.namesOption init
  | .block body => Stmt.FitsAll path 0 (ρ.isTarget path [] body :: marks) body
  | .ifThen c t | .loop c t => ρ.new ∉ c.names ∧ t.Fits (0 :: path) marks
  | .ifElse c t e => ρ.new ∉ c.names ∧ t.Fits (0 :: path) marks ∧ e.Fits (1 :: path) marks
  | .function decl =>
    ρ.Keeps (marks.headD false) decl.name.lexeme ∧ Stmt.FitsFunction path marks decl
  | .ret _ value => ρ.new ∉ Expr.namesOption value
  | .classDecl name none methods =>
    ρ.Keeps (marks.headD false) name.lexeme ∧ Stmt.FitsMethods path 0 (false :: marks) methods
  | .classDecl name (some e) methods =>
    ρ.Keeps (marks.headD false) name.lexeme ∧ ρ.new ∉ e.names ∧
      Stmt.FitsMethods path 0 (false :: false :: marks) methods

def Stmt.FitsAll (path : List Nat) (i : Nat) (marks : List Bool) : List Stmt → Prop
  | [] => True
  | s :: ss => s.Fits (i :: path) marks ∧ Stmt.FitsAll path (i + 1) marks ss

def Stmt.FitsFunction (path : List Nat) (marks : List Bool) : FunctionDecl Stmt → Prop
  | ⟨_, params, body⟩ => (∀ p ∈ params, p.lexeme ≠ ρ.new) ∧
      Stmt.FitsAll path 0 (ρ.isTarget path params body :: marks) body

def Stmt.FitsMethods (path : List Nat) (i : Nat) (marks : List Bool) :
    List (FunctionDecl Stmt) → Prop
  | [] => True
  | m :: ms => Stmt.FitsFunction (i :: path) marks m ∧ Stmt.FitsMethods path (i + 1) marks ms

end

end Fits

variable {D : Distances} {ctx : Context} {scope : StaticScope} {outer : List StaticScope}
  {name : String}

theorem Stmt.Bound.fresh {s : Stmt} {t : Token} (h : s.Bound D ctx scopes)
    (hs : s.declared? = some t) : Fresh scopes t.lexeme := by
  match s, hs with
  | .var _ _, rfl | .function _, rfl => exact h.2.1
  | .classDecl _ none _, rfl | .classDecl _ (some _) _, rfl => exact h.2.1

theorem Stmt.scopesAfter_cons (s : Stmt) (scope : StaticScope) (outer : List StaticScope) :
    ∃ scope', s.scopesAfter (scope :: outer) = scope' :: outer ∧
      ∀ name, scope'.contains name =
        (scope.contains name || s.declared?.any (·.lexeme = name)) := by
  unfold Stmt.scopesAfter
  cases s.declared? with
  | none => exact ⟨scope, rfl, fun name => by simp⟩
  | some t =>
    refine ⟨scope.insert t.lexeme true, rfl, fun name => ?_⟩
    rw [Bindings.contains, Bindings.get?_insert, Bindings.contains]
    by_cases hn : t.lexeme = name <;> simp [hn]

theorem Stmt.BoundAll.not_declared {ss : List Stmt} (h : Stmt.BoundAll D ctx (scope :: outer) ss)
    (hc : scope.contains name) {s : Stmt} (hs : s ∈ ss) {t : Token} (ht : s.declared? = some t) :
    t.lexeme ≠ name := by
  induction ss generalizing scope with
  | nil => cases hs
  | cons u ss ih =>
    obtain ⟨scope', hafter, hcontains⟩ := u.scopesAfter_cons scope outer
    obtain rfl | hs := List.mem_cons.mp hs
    · rintro rfl
      have hfresh := h.1.fresh ht scope rfl
      rw [Bindings.contains, hfresh] at hc
      cases hc
    · exact ih (hafter ▸ h.2) (by rw [hcontains, hc, Bool.true_or]) hs

theorem Stmt.BoundAll.isVariable_of_declared {ss : List Stmt}
    (h : Stmt.BoundAll D ctx (scope :: outer) ss) (hv : ss.any (·.isVariable name)) {s : Stmt}
    (hs : s ∈ ss) {t : Token} (ht : s.declared? = some t) (hn : t.lexeme = name) :
    s.isVariable name := by
  induction ss generalizing scope with
  | nil => cases hs
  | cons u ss ih =>
    obtain ⟨scope', hafter, hcontains⟩ := u.scopesAfter_cons scope outer
    have hrest := h.2
    rw [hafter] at hrest
    rw [List.any_cons, Bool.or_eq_true] at hv
    obtain rfl | hmem := List.mem_cons.mp hs
    · refine hv.resolve_right fun hv => ?_
      obtain ⟨w, hw, hwv⟩ := List.any_eq_true.mp hv
      have hc : scope'.contains name := by simp [hcontains, ht, hn]
      cases w with
      | var wname init => exact hrest.not_declared hc hw rfl (by simpa [isVariable] using hwv)
      | _ => cases hwv
    · refine ih hrest (hv.resolve_left fun hu => ?_) hmem
      cases u with
      | var uname init =>
        have hu : uname.lexeme = name := by simpa [isVariable] using hu
        exact hrest.not_declared (by simp [hcontains, declared?, hu]) hmem ht hn
      | _ => cases hu

theorem contains_parameterScope (params : List Token) (name : String) :
    (parameterScope params).contains name = params.any (·.lexeme = name) := by
  have h (scope : StaticScope) : (params.foldl (fun scope p => scope.insert p.lexeme true)
      scope).contains name = (scope.contains name || params.any (·.lexeme = name)) := by
    induction params generalizing scope with
    | nil => simp
    | cons p params ih =>
      rw [List.foldl_cons, ih, List.any_cons, Bindings.contains, Bindings.get?_insert]
      by_cases hp : p.lexeme = name <;> simp [hp, Bindings.contains]
  exact (h .empty).trans (Bool.false_or _)

theorem Renaming.isVariable_of_isTarget {ρ : Renaming} (params : List Token) {body : List Stmt}
    (hb : Stmt.BoundAll D ctx (parameterScope params :: outer) body)
    (hm : ρ.isTarget path params body = true) {s : Stmt} (hs : s ∈ body) {t : Token}
    (ht : s.declared? = some t) (hold : t.lexeme = ρ.old) : s.isVariable ρ.old := by
  rw [isTarget, Bool.and_eq_true, Bool.or_eq_true] at hm
  obtain hp | hv := hm.2
  · rw [← contains_parameterScope] at hp
    exact absurd hold (hb.not_declared hp hs ht)
  · exact hb.isVariable_of_declared hv hs ht hold

/-- The condition on a statement in a scope: what it declares as the old name is the variable. -/
def Renaming.Alone (ρ : Renaming) (marks : List Bool) (s : Stmt) : Prop :=
  marks.headD false = true → ∀ t, s.declared? = some t → t.lexeme = ρ.old → s.isVariable ρ.old

theorem Renaming.Alone.of_none {ρ : Renaming} {s : Stmt} (h : s.declared? = none) :
    ρ.Alone marks s := by
  intro _ t ht
  rw [h] at ht
  cases ht

theorem Renaming.Alone.keeps {ρ : Renaming} {s : Stmt} (h : ρ.Alone marks s) {t : Token}
    (ht : s.declared? = some t) (hv : s.isVariable ρ.old = false) (hn : t.lexeme ≠ ρ.new) :
    ρ.Keeps (marks.headD false) t.lexeme := by
  refine ⟨hn, if_neg ?_⟩
  rintro ⟨hm, hold⟩
  rw [h hm t ht hold] at hv
  cases hv

variable {ρ : Renaming}

mutual

theorem Stmt.fits_of_bound : (s : Stmt) → {ctx : Context} → {scopes : List StaticScope} →
    s.Bound D ctx scopes → ρ.new ∉ s.names → (path : List Nat) → ρ.Alone marks s →
    s.Fits ρ path marks
  | .expr _, _, _, _, hn, _, _ | .print _, _, _, _, hn, _, _ | .ret _ _, _, _, _, hn, _, _ => hn
  | .var _ _, _, _, _, hn, _, _ => ⟨fun h => hn (h ▸ .head _), fun h => hn (.tail _ h)⟩
  | .block body, _, _, hb, hn, path, _ =>
    Stmt.fitsAll_of_bound body hb hn path 0 fun _ hs hm _ ht =>
      Renaming.isVariable_of_isTarget [] hb hm hs ht
  | .ifThen _ t, _, _, hb, hn, path, _ | .loop _ t, _, _, hb, hn, path, _ =>
    have hn := mt List.mem_append.mpr hn
    ⟨fun h => hn (.inl h),
      Stmt.fits_of_bound t hb.2.1 (fun h => hn (.inr h)) (0 :: path) (.of_none hb.2.2)⟩
  | .ifElse _ t e, _, _, hb, hn, path, _ =>
    have hn := mt List.mem_append.mpr hn
    have hbranches := mt List.mem_append.mpr fun h => hn (.inr h)
    ⟨fun h => hn (.inl h),
      Stmt.fits_of_bound t hb.2.1.1 (fun h => hbranches (.inl h)) (0 :: path)
        (.of_none hb.2.1.2),
      Stmt.fits_of_bound e hb.2.2.1 (fun h => hbranches (.inr h)) (1 :: path)
        (.of_none hb.2.2.2)⟩
  | .function decl, _, _, hb, hn, path, ha =>
    ⟨ha.keeps rfl rfl fun h => hn (h ▸ .head _),
      Stmt.fitsFunction_of_bound decl hb.2.2 (fun h => hn (.tail _ h)) path⟩
  | .classDecl _ none methods, _, _, hb, hn, path, ha =>
    ⟨ha.keeps rfl rfl fun h => hn (h ▸ .head _),
      Stmt.fitsMethods_of_bound methods hb.2.2 (fun h => hn (.tail _ h)) path 0⟩
  | .classDecl _ (some _) methods, _, _, hb, hn, path, ha =>
    have hparts := mt List.mem_append.mpr fun h => hn (.tail _ h)
    ⟨ha.keeps rfl rfl fun h => hn (h ▸ .head _), fun h => hparts (.inl h),
      Stmt.fitsMethods_of_bound methods hb.2.2.2.2 (fun h => hparts (.inr h)) path 0⟩

theorem Stmt.fitsAll_of_bound : (ss : List Stmt) → {ctx : Context} →
    {scopes : List StaticScope} → Stmt.BoundAll D ctx scopes ss → ρ.new ∉ Stmt.namesAll ss →
    (path : List Nat) → (i : Nat) → (∀ s ∈ ss, ρ.Alone marks s) → Stmt.FitsAll ρ path i marks ss
  | [], _, _, _, _, _, _, _ => trivial
  | s :: ss, _, _, hb, hn, path, i, ha =>
    have hn := mt List.mem_append.mpr hn
    ⟨Stmt.fits_of_bound s hb.1 (fun h => hn (.inl h)) (i :: path) (ha s (.head _)),
      Stmt.fitsAll_of_bound ss hb.2 (fun h => hn (.inr h)) path (i + 1)
        fun s hs => ha s (.tail _ hs)⟩

theorem Stmt.fitsFunction_of_bound : (decl : FunctionDecl Stmt) → {ctx : Context} →
    {scopes : List StaticScope} → Stmt.BoundFunction D ctx scopes decl →
    ρ.new ∉ Stmt.namesFunction decl → (path : List Nat) → Stmt.FitsFunction ρ path marks decl
  | ⟨_, _, body⟩, _, _, hb, hn, path =>
    have hn := mt List.mem_append.mpr hn
    ⟨fun _ hp he => hn (.inl (he ▸ List.mem_map_of_mem hp)),
      Stmt.fitsAll_of_bound body hb.2 (fun h => hn (.inr h)) path 0 fun _ hs hm _ ht =>
        Renaming.isVariable_of_isTarget _ hb.2 hm hs ht⟩

theorem Stmt.fitsMethods_of_bound : (ms : List (FunctionDecl Stmt)) → {cls : ClassContext} →
    {scopes : List StaticScope} → Stmt.BoundMethods D cls scopes ms →
    ρ.new ∉ Stmt.namesMethods ms → (path : List Nat) → (i : Nat) →
    Stmt.FitsMethods ρ path i marks ms
  | [], _, _, _, _, _, _ => trivial
  | m :: ms, _, _, hb, hn, path, i =>
    have hn := mt List.mem_append.mpr hn
    ⟨Stmt.fitsFunction_of_bound m hb.1 (fun h => hn (.inl h)) (i :: path),
      Stmt.fitsMethods_of_bound ms hb.2 (fun h => hn (.inr h)) path (i + 1)⟩

end

end Treewalk

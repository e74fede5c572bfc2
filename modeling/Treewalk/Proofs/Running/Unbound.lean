import Treewalk.Proofs.Running.Steps
import Treewalk.Proofs.SideBySide.Tree

namespace Treewalk

open Run

def Pairing.unbound (D : Distances) : Pairing := fun i i' _ => D[i]? = none ∧ D[i']? = none

namespace Run

variable {α β : Type} {D : Distances}

def SameAt (D : Distances) (x x' : Run α) : Prop := ∀ m, m.distances = D → x m = x' m

theorem SameAt.refl (x : Run α) : SameAt D x x := fun _ _ => rfl

theorem SameAt.bind {x x' : Run α} {f f' : α → Run β} (hx : SameAt D x x')
    (hsteps : Evaluates x) (hf : ∀ a, SameAt D (f a) (f' a)) :
    SameAt D (x >>= f) (x' >>= f') := by
  intro m hm
  cases h : x m with
  | ok a m₁ =>
    have hm₁ : m₁.distances = D := by
      rw [← after_of_ok h, (hsteps.frame m).distances, hm]
    rw [bind_of_ok h, bind_of_ok (hx m hm ▸ h)]
    exact hf a m₁ hm₁
  | error e m₁ => rw [bind_of_error h, bind_of_error (hx m hm ▸ h)]

variable {ref ref' : Ref}

theorem SameAt.read (hid : Pairing.unbound D ref.id ref'.id d) (ht : ref.token = ref'.token) :
    SameAt D (read ref) (read ref') := by
  rintro m rfl
  simp only [Run.read, Machine.find?, hid.1, hid.2, ht]

theorem SameAt.assign (hid : Pairing.unbound D ref.id ref'.id d) (ht : ref.token = ref'.token)
    (v : Value) : SameAt D (assign ref v) (assign ref' v) := by
  rintro m rfl
  simp only [Run.assign, Machine.owner?, hid.1, hid.2, ht]

theorem inherited_unbound {m : Machine} (h : m.distances[ref.id]? = none) (method : Token) :
    inherited ref method m = fail .superOutsideClass ref.token m := by
  have hget : (get : Run Machine) m = .ok m m := rfl
  rw [Run.inherited, bind_of_ok hget, h]

theorem SameAt.inherited (hid : Pairing.unbound D ref.id ref'.id d) (ht : ref.token = ref'.token)
    (method : Token) : SameAt D (inherited ref method) (inherited ref' method) := by
  rintro m rfl
  rw [inherited_unbound hid.1, inherited_unbound hid.2, ht]

end Run

variable {D : Distances}

mutual

theorem Expr.Alike.evaluate : {e e' : Expr} → e.Alike .exact (.unbound D) marks e' → (n : Nat) →
    SameAt D (Treewalk.evaluate n e) (Treewalk.evaluate n e')
  | _, _, _, 0 => .refl _
  | _, _, .literal, _ + 1 => .refl _
  | _, _, .group he, n + 1 => Expr.Alike.evaluate he n
  | _, _, .unary rfl he, n + 1 =>
    (Expr.Alike.evaluate he n).bind (evaluates_evaluate n _) fun _ => .refl _
  | _, _, .binary hl rfl hr, n + 1 =>
    (Expr.Alike.evaluate hl n).bind (evaluates_evaluate n _) fun _ =>
      (Expr.Alike.evaluate hr n).bind (evaluates_evaluate n _) fun _ => .refl _
  | .logical _ op _, _, .logical hl rfl hr, n + 1 =>
    (Expr.Alike.evaluate hl n).bind (evaluates_evaluate n _) fun a => by
      cases decides op a with
      | true => exact .refl _
      | false => exact Expr.Alike.evaluate hr n
  | _, _, .name ⟨_, hid, hn⟩, _ + 1 => .read hid hn.same
  | _, _, .assign ⟨_, hid, hn⟩ he, n + 1 =>
    (Expr.Alike.evaluate he n).bind (evaluates_evaluate n _) fun v =>
      (SameAt.assign hid hn.same v).bind (Composed.assign trivial v) fun _ => .refl _
  | _, _, .call hc rfl ha, n + 1 =>
    (Expr.Alike.evaluate hc n).bind (evaluates_evaluate n _) fun _ =>
      (Expr.AlikeAll.evaluateAll ha n).bind (evaluates_evaluateAll n _) fun _ => .refl _
  | _, _, .get ho rfl, n + 1 =>
    (Expr.Alike.evaluate ho n).bind (evaluates_evaluate n _) fun _ => .refl _
  | _, _, .set ho rfl he, n + 1 =>
    (Expr.Alike.evaluate ho n).bind (evaluates_evaluate n _) fun v => by
      cases v with
      | object id =>
        exact (Expr.Alike.evaluate he n).bind (evaluates_evaluate n _) fun _ => .refl _
      | _ => exact .refl _
  | _, _, .receiver ⟨_, hid, hn⟩, _ + 1 => .read hid hn.same
  | _, _, .inherited hid ht rfl, _ + 1 => .inherited hid ht _

theorem Expr.AlikeAll.evaluateAll : {es es' : List Expr} →
    Expr.AlikeAll .exact (.unbound D) marks es es' → (n : Nat) →
    SameAt D (Treewalk.evaluateAll n es) (Treewalk.evaluateAll n es')
  | _, _, _, 0 => .refl _
  | _, _, .nil, _ + 1 => .refl _
  | _, _, .cons he hes, n + 1 =>
    (Expr.Alike.evaluate he n).bind (evaluates_evaluate n _) fun _ =>
      (Expr.AlikeAll.evaluateAll hes n).bind (evaluates_evaluateAll n _) fun _ => .refl _

end

end Treewalk

import Treewalk.Proofs.Renaming.Resolution
import Treewalk.Proofs.SideBySide.Tree

namespace Treewalk

open Wording

def Renaming.wording (ρ : Renaming) : Wording where
  Same := Eq
  Known name := name ≠ ρ.new
  word := ρ.word
  kind_eq := @exact.kind_eq
  lexeme_eq := @exact.lexeme_eq
  word_false := ρ.word_false
  word_inj ha hb := (Renaming.word_inj ha hb).mp
  known_keyword := ρ.keyword_ne_new
  word_keyword := ρ.word_keyword

def Pairing.table (D : Distances) : Pairing := fun i i' d => i' = i ∧ D[i]? = d

variable {ρ : Renaming} {D : Distances} {marks : List Bool} {marked : Bool}

namespace Renaming

theorem named (hn : t.lexeme ≠ ρ.new) : ρ.wording.Named marked t (ρ.token marked t) := ⟨hn, rfl⟩

theorem Keeps.shown (h : ρ.Keeps marked t.lexeme) : ρ.wording.Shown marked t t := ⟨h.1, h.2, rfl⟩

theorem isBound_eq (D : Distances) (marks : List Bool) (ref : Ref) :
    isBound D marks ref = markAt marks D[ref.id]? := by
  unfold isBound
  cases D[ref.id]? <;> rfl

theorem occurs {ref : Ref} (hn : ref.token.lexeme ≠ ρ.new) :
    ρ.wording.Occurs (.table D) marks ref (ρ.ref D marks ref) := by
  refine ⟨_, ⟨rfl, rfl⟩, ?_⟩
  rw [← isBound_eq]
  exact named hn

theorem occurs_keyword {ref : Ref} (k : Keyword) (hk : ref.token.lexeme = k.spelling) :
    ρ.wording.Occurs (.table D) marks ref ref := by
  refine ⟨_, ⟨rfl, rfl⟩, ?_, ?_⟩
  · exact hk ▸ ρ.keyword_ne_new k
  · rw [Wording.token, hk, ρ.wording.word_keyword, ← hk]
    rfl

end Renaming

open Renaming

mutual

theorem Expr.alike_rename : (e : Expr) → e.Proper → ρ.new ∉ e.names →
    e.Alike ρ.wording (.table D) marks (e.rename ρ D marks)
  | .literal _, _, _ => .literal
  | .group e, hp, hn => .group (Expr.alike_rename e hp hn)
  | .unary _ e, hp, hn => .unary rfl (Expr.alike_rename e hp hn)
  | .binary l _ r, hp, hn =>
    have hn := mt List.mem_append.mpr hn
    .binary (Expr.alike_rename l hp.1 fun h => hn (.inl h)) rfl
      (Expr.alike_rename r hp.2 fun h => hn (.inr h))
  | .logical l _ r, hp, hn =>
    have hn := mt List.mem_append.mpr hn
    .logical (Expr.alike_rename l hp.1 fun h => hn (.inl h)) rfl
      (Expr.alike_rename r hp.2 fun h => hn (.inr h))
  | .name _, _, hn => .name (occurs fun h => hn (h ▸ .head _))
  | .assign _ e, hp, hn =>
    .assign (occurs fun h => hn (h ▸ .head _)) (Expr.alike_rename e hp.2 fun h => hn (.tail _ h))
  | .call callee _ args, hp, hn =>
    have hn := mt List.mem_append.mpr hn
    .call (Expr.alike_rename callee hp.1 fun h => hn (.inl h)) rfl
      (Expr.alike_renameAll args hp.2 fun h => hn (.inr h))
  | .get o _, hp, hn => .get (Expr.alike_rename o hp hn) rfl
  | .set o _ e, hp, hn =>
    have hn := mt List.mem_append.mpr hn
    .set (Expr.alike_rename o hp.1 fun h => hn (.inl h)) rfl
      (Expr.alike_rename e hp.2 fun h => hn (.inr h))
  | .receiver _, hp, _ => .receiver (occurs_keyword .thisKw hp)
  | .inherited _ _, _, _ => .inherited ⟨rfl, rfl⟩ rfl rfl

theorem Expr.alike_renameAll : (es : List Expr) → Expr.ProperAll es → ρ.new ∉ Expr.namesAll es →
    Expr.AlikeAll ρ.wording (.table D) marks es (Expr.renameAll ρ D marks es)
  | [], _, _ => .nil
  | e :: es, hp, hn =>
    have hn := mt List.mem_append.mpr hn
    .cons (Expr.alike_rename e hp.1 fun h => hn (.inl h))
      (Expr.alike_renameAll es hp.2 fun h => hn (.inr h))

end

theorem Expr.alike_renameOption (e : Option Expr) (hp : Expr.ProperOption e)
    (hn : ρ.new ∉ Expr.namesOption e) :
    Expr.AlikeOption ρ.wording (.table D) marks e (e.map (Expr.rename ρ D marks)) := by
  cases e with
  | none => exact .none
  | some e => exact .some (e.alike_rename hp hn)

theorem Renaming.named_params {params : List Token} (hn : ∀ p ∈ params, p.lexeme ≠ ρ.new) :
    List.Forall₂ (ρ.wording.Named marked) params (params.map (ρ.token marked)) := by
  rw [List.forall₂_map_right_iff, List.forall₂_same]
  exact fun p hp => named (hn p hp)

mutual

theorem Stmt.alike_rename : (s : Stmt) → {path : List Nat} → {marks : List Bool} → s.Proper →
    s.Fits ρ path marks → s.Alike ρ.wording (.table D) marks (s.rename ρ D path marks)
  | .expr e, _, _, hp, hf => .expr (e.alike_rename hp hf)
  | .print e, _, _, hp, hf => .print (e.alike_rename hp hf)
  | .var _ init, _, _, hp, hf => .var (named hf.1) (Expr.alike_renameOption init hp.2 hf.2)
  | .block body, _, _, hp, hf => .block (Stmt.alike_renameAll body hp hf)
  | .ifThen c t, _, _, hp, hf =>
    .ifThen (c.alike_rename hp.1 hf.1) (Stmt.alike_rename t hp.2.1 hf.2)
  | .ifElse c t e, _, _, hp, hf =>
    .ifElse (c.alike_rename hp.1 hf.1) (Stmt.alike_rename t hp.2.1.1 hf.2.1)
      (Stmt.alike_rename e hp.2.2.1 hf.2.2)
  | .loop c body, _, _, hp, hf =>
    .loop (c.alike_rename hp.1 hf.1) (Stmt.alike_rename body hp.2.1 hf.2)
  | .function ⟨_, _, _⟩, _, _, hp, hf =>
    .function hf.1.shown (Stmt.alike_renameFunction _ hp hf.2)
  | .ret _ value, _, _, hp, hf => .ret rfl (Expr.alike_renameOption value hp hf)
  | .classDecl _ none methods, _, _, hp, hf =>
    .base hf.1.shown (Stmt.alike_renameMethods methods hp.2.2.2 hf.2)
  | .classDecl _ (some e) methods, _, _, hp, hf => by
    obtain ⟨ref, rfl⟩ := hp.2.2.1 e rfl
    exact .derived hf.1.shown (occurs fun h => hf.2.1 (h ▸ .head _))
      (Stmt.alike_renameMethods methods hp.2.2.2 hf.2.2)

theorem Stmt.alike_renameAll : (ss : List Stmt) → {path : List Nat} → {i : Nat} →
    {marks : List Bool} → Stmt.ProperAll ss → Stmt.FitsAll ρ path i marks ss →
    Stmt.AlikeAll ρ.wording (.table D) marks ss (Stmt.renameAll ρ D path i marks ss)
  | [], _, _, _, _, _ => .nil
  | s :: ss, _, _, _, hp, hf =>
    .cons (Stmt.alike_rename s hp.1 hf.1) (Stmt.alike_renameAll ss hp.2 hf.2)

theorem Stmt.alike_renameFunction : (decl : FunctionDecl Stmt) → {path : List Nat} →
    {marks : List Bool} → Stmt.ProperFunction decl → Stmt.FitsFunction ρ path marks decl →
    Stmt.AlikeFunction ρ.wording (.table D) marks decl (Stmt.renameFunction ρ D path marks decl)
  | ⟨_, _, body⟩, _, _, hp, hf =>
    .mk rfl (named_params hf.1) (Stmt.alike_renameAll body hp.2.2 hf.2)

theorem Stmt.alike_renameMethods : (ms : List (FunctionDecl Stmt)) → {path : List Nat} →
    {i : Nat} → {marks : List Bool} → Stmt.ProperMethods ms → Stmt.FitsMethods ρ path i marks ms →
    Stmt.AlikeMethods ρ.wording (.table D) marks ms (Stmt.renameMethods ρ D path i marks ms)
  | [], _, _, _, _, _ => .nil
  | m :: ms, _, _, _, hp, hf =>
    .cons (Stmt.alike_renameFunction m hp.1 hf.1) (Stmt.alike_renameMethods ms hp.2 hf.2)

end

end Treewalk

import Treewalk.Proofs.Grammar.Completeness.Statement
import Treewalk.Proofs.Grammar.Derivation

namespace Treewalk.Grammar

/-- A list of tokens, cut at its first end, is read without a fault exactly when the productions
derive it, and the tree is then the only one that the grammar reads. -/
theorem program_accepts_iff_derives (tokens : List Token) (nextId : Nat) :
    let ts := tokens.takeWhile (·.kind ≠ .eof)
    let (stmts, c) := (Cursor.ofTokens tokens nextId).program
    (c.faults = [] ↔ Derives (.symbol .program) (ts.map Token.kind ++ [.eof])) ∧
      ∀ ss, (∃ n, ReadsDecls ts nextId ss [] n) ↔ c.faults = [] ∧ stmts = ss := by
  intro ts
  have hiff (ss : List Stmt) (n : Nat) : ReadsDecls ts nextId ss [] n ↔ _ :=
    readsDecls_iff_program (Cursor.eof_kind_ofTokens tokens nextId)
  dsimp only
  constructor
  · rw [derives_program_iff ts nextId]
    constructor
    · intro hf
      exact ⟨_, _, (hiff _ _).mpr ⟨hf, rfl, rfl⟩⟩
    · rintro ⟨ss, n, h⟩
      exact ((hiff ss n).mp h).1
  · intro ss
    constructor
    · rintro ⟨n, h⟩
      obtain ⟨hf, hs, -⟩ := (hiff ss n).mp h
      exact ⟨hf, hs⟩
    · rintro ⟨hf, hs⟩
      exact ⟨_, (hiff ss _).mpr ⟨hf, hs, rfl⟩⟩

end Treewalk.Grammar

import Treewalk.Proofs.Grammar.Indexed.Compositional

namespace Treewalk

namespace Parser

structure IsFirstEnd (tokens : Array Token) (last : Nat) : Prop where
  kind : tokens[last]?.map Token.kind = some .eof
  before : ∀ i < last, tokens[i]?.map Token.kind ≠ some .eof

/-- From `p` the parser has come to `p'`, on the same tokens and not beyond `last`. -/
structure Onward (last : Nat) (p p' : Parser) : Prop where
  tokens : p'.tokens = p.tokens
  le : p.current ≤ p'.current
  current_le : p'.current ≤ last

variable {α β : Type} {p p' p'' : Parser} {last : Nat}

theorem Onward.refl (h : p.current ≤ last) : Onward last p p := ⟨rfl, Nat.le_refl _, h⟩

theorem Onward.trans (h : Onward last p p') (h' : Onward last p' p'') : Onward last p p'' :=
  ⟨h'.tokens.trans h.tokens, Nat.le_trans h.le h'.le, h'.current_le⟩

/-- Where `w` has a result from a place in range, it has moved on within the range. -/
def Moves (tokens : Array Token) (last : Nat) (w : Run α) : Prop :=
  ∀ p r p', p.tokens = tokens → p.current ≤ last → w p = some (r, p') → Onward last p p'

variable {tokens : Array Token}

theorem Moves.bind {w : Run α} {f : α → Run β} (hw : Moves tokens last w)
    (hf : ∀ a, Moves tokens last (f a)) : Moves tokens last (w >>= f) := by
  intro p r p'' ht hp hrun
  obtain ⟨e, hw', -⟩ | ⟨a, p', hw', hrest⟩ := bind_run_cases hrun
  · exact hw p _ p'' ht hp hw'
  · have ho := hw p _ p' ht hp hw'
    exact ho.trans (hf a p' r p'' (ho.tokens.trans ht) ho.current_le hrest)

theorem moves_of_still {w : Run α}
    (h : ∀ p r p', w p = some (r, p') → p'.tokens = p.tokens ∧ p'.current = p.current) :
    Moves tokens last w := by
  intro p r p' _ hp hrun
  obtain ⟨ht', hc⟩ := h p r p' hrun
  exact ⟨ht', Nat.le_of_eq hc.symm, hc ▸ hp⟩

theorem moves_pure (a : α) : Moves tokens last (pure a) :=
  moves_of_still fun _ _ _ h => by cases h; exact ⟨rfl, rfl⟩

theorem moves_throw (d : Diagnostic) : Moves tokens last (throw d : Run α) :=
  moves_of_still fun _ _ _ h => by cases h; exact ⟨rfl, rfl⟩

theorem moves_tokenAt (i : Nat) : Moves tokens last (tokenAt i) := by
  refine moves_of_still fun p r p' h => ?_
  obtain ⟨t, -, -, rfl⟩ := tokenAt_run_cases h
  exact ⟨rfl, rfl⟩

theorem Moves.attempt {w : Run α} (hw : Moves tokens last w) :
    Moves tokens last (Parser.attempt w) := by
  intro p r p' ht hp hrun
  obtain ⟨r', hw', -⟩ := attempt_run_cases hrun
  exact hw p r' p' ht hp hw'

theorem moves_get : Moves tokens last (get : Run Parser) :=
  moves_of_still fun _ _ _ h => by cases h; exact ⟨rfl, rfl⟩

theorem moves_peek : Moves tokens last peek := moves_get.bind fun _ => moves_tokenAt _

theorem moves_previous : Moves tokens last previous := moves_get.bind fun _ => moves_tokenAt _

theorem moves_failHere (fault : SyntaxFault) : Moves tokens last (failHere fault : Run α) :=
  moves_peek.bind fun _ => moves_throw _

theorem moves_keep (d : Diagnostic) : Moves tokens last (keep d) :=
  moves_of_still fun _ _ _ h => by cases h; exact ⟨rfl, rfl⟩

theorem moves_number (t : Token) : Moves tokens last (number t) :=
  moves_of_still fun _ _ _ h => by cases h; exact ⟨rfl, rfl⟩

section

variable (hlast : IsFirstEnd tokens last)
include hlast

theorem moves_advance : Moves tokens last advance := by
  intro p r p' ht hp hrun
  obtain ⟨e, he, hkind⟩ := Option.map_eq_some_iff.mp hlast.kind
  have hsize : p.current < tokens.size := by
    have := (Array.getElem?_eq_some_iff.mp he).1
    omega
  have hat : tokens[p.current]? = some tokens[p.current] := Array.getElem?_eq_getElem hsize
  have hend : atEnd p = some (.ok (tokens[p.current].kind = .eof), p) :=
    bind_run_ok _ (tokenAt_eq (ht ▸ hat))
  rw [advance, bind_run_ok _ hend] at hrun
  by_cases heof : tokens[p.current].kind = .eof
  · rw [decide_eq_true heof] at hrun
    exact moves_previous p r p' ht hp hrun
  · rw [decide_eq_false heof] at hrun
    have hlt : p.current < last := by
      refine Nat.lt_of_le_of_ne hp fun heq => heof ?_
      have hat' : tokens[p.current]? = some e := heq ▸ he
      exact Option.some.inj (hat.symm.trans hat') ▸ hkind
    have ho : Onward last p { p with current := p.current + 1 } := ⟨rfl, Nat.le_succ _, hlt⟩
    exact ho.trans (moves_previous _ r p' ht hlt hrun)

theorem compositional_moves : Compositional fun _ w => Moves tokens last w where
  never := fun _ _ _ _ _ h => nomatch h
  pure := moves_pure
  bind := .bind
  attempt := .attempt
  peek := moves_peek
  previous := moves_previous
  advance := moves_advance hlast
  failHere := moves_failHere
  keep := moves_keep
  number := moves_number

theorem moves_run (depth : Nat) (rule : Rule α) : Moves tokens last (run depth rule) :=
  (compositional_moves hlast).run depth rule

end

end Parser

end Treewalk

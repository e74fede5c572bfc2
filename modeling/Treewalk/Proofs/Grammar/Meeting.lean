import Treewalk.Proofs.Grammar.Reading

namespace Treewalk

namespace Cursor

theorem eof_kind_ofTokens (tokens : List Token) (nextId : Nat) :
    (ofTokens tokens nextId).eof.kind = .eof := by
  simp only [ofTokens]
  cases h : tokens.find? (·.kind = .eof) with
  | none => rfl
  | some t => simpa using List.find?_some h

structure Leads (c d : Cursor) : Prop where
  eof : d.eof = c.eof
  rest : d.rest <:+ c.rest
  faults : c.faults <+: d.faults
  nextId : c.nextId ≤ d.nextId

theorem Leads.refl (c : Cursor) : c.Leads c :=
  ⟨rfl, List.suffix_refl _, List.prefix_refl _, Nat.le_refl _⟩

theorem Leads.trans {c d e : Cursor} (h : c.Leads d) (h' : d.Leads e) : c.Leads e :=
  ⟨h'.eof.trans h.eof, h'.rest.trans h.rest, h.faults.trans h'.faults,
    Nat.le_trans h.nextId h'.nextId⟩

theorem Leads.length_le {c d : Cursor} (h : c.Leads d) : d.rest.length ≤ c.rest.length :=
  h.rest.length_le

theorem Leads.clean {c d e : Cursor} (h : c.Leads d) (h' : d.Leads e) (he : e.faults = c.faults) :
    d.faults = c.faults ∧ e.faults = d.faults := by
  have hle : d.faults.length ≤ c.faults.length := by
    simpa [he] using h'.faults.length_le
  have hd : c.faults = d.faults := h.faults.eq_of_length_le hle
  exact ⟨hd.symm, he.trans hd⟩

theorem leads_report (c : Cursor) (d : Diagnostic) : c.Leads (c.report d) :=
  ⟨rfl, List.suffix_refl _, List.prefix_append _ _, Nat.le_refl _⟩

theorem leads_of_rest (c : Cursor) {ts : List Token} (h : ts <:+ c.rest) :
    c.Leads { c with rest := ts } :=
  ⟨rfl, h, List.prefix_refl _, Nat.le_refl _⟩

theorem resume_suffix (last : Token) (ts : List Token) : resume last ts <:+ ts := by
  induction ts generalizing last with
  | nil => exact List.suffix_refl _
  | cons t ts ih =>
    rw [resume]
    split
    · exact List.suffix_refl _
    · exact (ih t).trans (List.suffix_cons t ts)

theorem leads_synchronize (c : Cursor) : c.Leads c.synchronize := by
  unfold synchronize
  split
  · exact Leads.refl c
  · next t ts hr =>
    apply leads_of_rest
    rw [hr]
    exact (resume_suffix t ts).trans (List.suffix_cons t ts)

end Cursor

namespace Grammar

abbrev Reading (α : Type) := List Token → Nat → α → List Token → Nat → Prop

variable {α β : Type}

namespace Reading

def andThen (R : Reading α) (S : α → Reading β) : Reading β := fun ts n b rest n₂ =>
  ∃ a mid n₁, R ts n a mid n₁ ∧ S a mid n₁ b rest n₂

def nothing (a : α) : Reading α := fun ts n b rest n₁ => b = a ∧ rest = ts ∧ n₁ = n

def token (kind : TokenKind) : Reading Token := fun ts n t rest n₁ =>
  ts = t :: rest ∧ t.kind = kind ∧ n₁ = n

def choice (wanted : TokenKind → Bool) (R : Token → Reading α) (S : Reading α) : Reading α :=
  fun ts n a rest n₁ =>
    (∃ t mid, ts = t :: mid ∧ wanted t.kind ∧ R t mid n a rest n₁) ∨
      ((∀ t ∈ ts.head?, ¬ wanted t.kind) ∧ S ts n a rest n₁)

end Reading

end Grammar

namespace Parse

variable {α β : Type} {p : Parse α} {c d : Cursor}

theorem bind_ok {a : α} (f : α → Parse β) (h : p c = .ok a d) : (p >>= f) c = f a d := by
  simp [bind, EStateM.bind, h]

theorem bind_error {e : Halt} (f : α → Parse β) (h : p c = .error e d) :
    (p >>= f) c = .error e d := by
  simp [bind, EStateM.bind, h]

theorem map_ok {a : α} (g : α → β) (h : p c = .ok a d) : (g <$> p) c = .ok (g a) d := by
  simp [Functor.map, EStateM.map, h]

theorem map_error {e : Halt} (g : α → β) (h : p c = .error e d) : (g <$> p) c = .error e d := by
  simp [Functor.map, EStateM.map, h]

end Parse

namespace Grammar

open Reading Parse

variable {α β : Type} {fuel fuel₁ k k₁ k₂ : Nat} {R S : Reading α}

def Outcome (fuel k : Nat) (R : Reading α) (c : Cursor) : EStateM.Result Halt Cursor α → Prop
  | .ok a d => c.Leads d ∧ d.rest.length + k ≤ c.rest.length ∧
      (d.faults = c.faults → R c.rest c.nextId a d.rest d.nextId)
  | .error (.fault _) d => c.Leads d
  | .error .exhausted d => c.Leads d ∧ fuel ≤ c.rest.length

def MeetsAt (fuel k : Nat) (p : Parse α) (R : Reading α) (c : Cursor) : Prop :=
  Outcome fuel k R c (p c)

def Meets (fuel k : Nat) (p : Parse α) (R : Reading α) : Prop :=
  ∀ c : Cursor, c.eof.kind = .eof → MeetsAt fuel k p R c

theorem Outcome.mono {c : Cursor} {r : EStateM.Result Halt Cursor α} (h : Outcome fuel₁ k₁ R c r)
    (hf : fuel ≤ fuel₁) (hk : k ≤ k₁)
    (hR : ∀ a rest n, R c.rest c.nextId a rest n → S c.rest c.nextId a rest n) :
    Outcome fuel k S c r := by
  match r, h with
  | .ok a d, ⟨hl, hlen, hr⟩ => exact ⟨hl, by omega, fun hd => hR _ _ _ (hr hd)⟩
  | .error (.fault _) d, h => exact h
  | .error .exhausted d, ⟨hl, hlen⟩ => exact ⟨hl, by omega⟩

theorem Meets.mono {p : Parse α} (h : Meets fuel₁ k₁ p R)
    (hR : ∀ ts n a rest n₁, R ts n a rest n₁ → S ts n a rest n₁) (hf : fuel ≤ fuel₁)
    (hk : k ≤ k₁) : Meets fuel k p S :=
  fun c hc => (h c hc).mono hf hk fun a rest n => hR _ _ a rest n

theorem Meets.weaken {p : Parse α} (h : Meets fuel₁ k p R) (hf : fuel ≤ fuel₁) : Meets fuel k p R :=
  h.mono (fun _ _ _ _ _ h => h) hf (Nat.le_refl k)

theorem MeetsAt.bind {p : Parse α} {f : α → Parse β} {T : α → Reading β} {c : Cursor}
    (hpc : MeetsAt fuel k₁ p R c) (hc : c.eof.kind = .eof) (hf : ∀ a, Meets fuel₁ k₂ (f a) (T a))
    (h₁ : fuel ≤ fuel₁ + k₁) : MeetsAt fuel (k₁ + k₂) (p >>= f) (andThen R T) c := by
  cases h : p c with
  | error e d =>
    rw [MeetsAt, bind_error f h]
    rw [MeetsAt, h] at hpc
    cases e with
    | fault _ => exact hpc
    | exhausted => exact hpc
  | ok a d =>
    rw [MeetsAt, bind_ok f h]
    rw [MeetsAt, h] at hpc
    obtain ⟨hl, hlen, hR⟩ := hpc
    have hfd : Outcome fuel₁ k₂ (T a) d (f a d) := hf a d (hl.eof ▸ hc)
    match f a d, hfd with
    | .ok b e, ⟨hl', hlen', hT⟩ =>
      refine ⟨hl.trans hl', by omega, fun he => ?_⟩
      obtain ⟨hd, he⟩ := hl.clean hl' he
      exact ⟨a, d.rest, d.nextId, hR hd, hT he⟩
    | .error (.fault _) e, hl' => exact hl.trans hl'
    | .error .exhausted e, ⟨hl', hlen'⟩ => exact ⟨hl.trans hl', by omega⟩

theorem Meets.bind {p : Parse α} {f : α → Parse β} {T : α → Reading β}
    (hp : Meets fuel k₁ p R) (hf : ∀ a, Meets fuel k₂ (f a) (T a)) :
    Meets fuel (k₁ + k₂) (p >>= f) (andThen R T) :=
  fun c hc => (hp c hc).bind hc hf (Nat.le_add_right fuel k₁)

theorem Meets.map {p : Parse α} (g : α → β) (hp : Meets fuel k p R) :
    Meets fuel k (g <$> p) fun ts n b rest n₁ => ∃ a, b = g a ∧ R ts n a rest n₁ := by
  intro c hc
  have hpc := hp c hc
  cases h : p c with
  | error e d =>
    rw [MeetsAt, map_error g h]
    rw [MeetsAt, h] at hpc
    cases e with
    | fault _ => exact hpc
    | exhausted => exact hpc
  | ok a d =>
    rw [MeetsAt, map_ok g h]
    rw [MeetsAt, h] at hpc
    exact ⟨hpc.1, hpc.2.1, fun hd => ⟨a, rfl, hpc.2.2 hd⟩⟩

theorem meets_pure (a : α) : Meets fuel 0 (pure a) (nothing a) :=
  fun c _ => ⟨Cursor.Leads.refl c, Nat.le_refl _, fun _ => ⟨rfl, rfl, rfl⟩⟩

theorem meets_exhausted : Meets 0 k exhausted R :=
  fun c _ => ⟨Cursor.Leads.refl c, Nat.zero_le _⟩

theorem meets_failHere {fault : SyntaxFault} : Meets fuel k (failHere fault) R :=
  fun c _ => Cursor.Leads.refl c

theorem meets_number (t : Token) :
    Meets fuel 0 (number t) fun ts n ref rest n₁ => ref = ⟨n, t⟩ ∧ rest = ts ∧ n₁ = n + 1 :=
  fun _ _ => ⟨⟨rfl, List.suffix_refl _, List.prefix_refl _, Nat.le_succ _⟩, Nat.le_refl _,
    fun _ => ⟨rfl, rfl, rfl⟩⟩

theorem meets_report {fault : SyntaxFault} {t : Token} {R : Reading Unit} :
    Meets fuel 0 (report fault t) R := by
  intro c _
  refine ⟨c.leads_report _, Nat.le_refl _, fun h => ?_⟩
  simp [Cursor.report] at h

theorem Meets.branch {wanted : TokenKind → Bool} {f : Option Token → Parse α}
    {T : Token → Reading α} (hs : ∀ t, wanted t.kind → Meets fuel k₁ (f (some t)) (T t))
    (hn : Meets fuel₁ k₂ (f none) S) :
    Meets (min (fuel + 1) fuel₁) (min (k₁ + 1) k₂) (acceptIf wanted >>= f) (Reading.choice wanted T S) := by
  intro c hc
  cases hr : c.rest with
  | nil =>
    have ha : acceptIf wanted c = .ok none c := by simp [acceptIf, hr]
    rw [MeetsAt, bind_ok f ha]
    refine Outcome.mono (hn c hc) (Nat.min_le_right _ _) (Nat.min_le_right _ _) fun a rest n h => .inr ⟨?_, h⟩
    simp [hr]
  | cons t ts =>
    by_cases hw : wanted t.kind
    · have ha : acceptIf wanted c = .ok (some t) { c with rest := ts } := by
        simp [acceptIf, hr, hw]
      rw [MeetsAt, bind_ok f ha]
      have hl : c.Leads { c with rest := ts } := c.leads_of_rest (hr ▸ List.suffix_cons t ts)
      have hd : Outcome fuel k₁ (T t) _ _ := hs t hw { c with rest := ts } hc
      have hlen : c.rest.length = ts.length + 1 := by simp [hr]
      match f (some t) { c with rest := ts }, hd with
      | .ok b e, ⟨hl', hlen', hT⟩ =>
        refine ⟨hl.trans hl', by dsimp only at hlen'; omega, fun he => .inl ⟨t, ts, hr, hw, hT he⟩⟩
      | .error (.fault _) e, hl' => exact hl.trans hl'
      | .error .exhausted e, ⟨hl', hlen'⟩ =>
        exact ⟨hl.trans hl', by dsimp only at hlen'; omega⟩
    · have ha : acceptIf wanted c = .ok none c := by simp [acceptIf, hr, hw]
      rw [MeetsAt, bind_ok f ha]
      refine Outcome.mono (hn c hc) (Nat.min_le_right _ _) (Nat.min_le_right _ _) fun a rest n h => .inr ⟨?_, h⟩
      simp [hr, hw]

theorem Meets.choice {wanted : TokenKind → Bool} {f : Option Token → Parse α}
    {T : Token → Reading α} (hs : ∀ t, wanted t.kind → Meets fuel k₁ (f (some t)) (T t))
    (hn : Meets (fuel + 1) k₂ (f none) S) :
    Meets (fuel + 1) (min (k₁ + 1) k₂) (acceptIf wanted >>= f) (Reading.choice wanted T S) :=
  (Meets.branch hs hn).weaken (by omega)

theorem Meets.either {wanted : TokenKind → Bool} {f : Option Token → Parse α}
    {T : Token → Reading α} (hs : ∀ t, wanted t.kind → Meets fuel k₁ (f (some t)) (T t))
    (hn : Meets fuel k₂ (f none) S) :
    Meets fuel (min (k₁ + 1) k₂) (acceptIf wanted >>= f) (Reading.choice wanted T S) :=
  (Meets.branch hs hn).weaken (by omega)

theorem meets_expect {kind : TokenKind} {fault : SyntaxFault} :
    Meets fuel 1 (expect kind fault) (Reading.token kind) := by
  have hfail : Meets fuel 1 (failHere fault) fun _ _ (_ : Token) _ _ => False := meets_failHere
  refine Meets.mono (Meets.either (fun t _ => meets_pure t) hfail) ?_ (by omega) (by omega)
  rintro ts n a rest n₁ (⟨t, mid, rfl, ht, rfl, rfl, rfl⟩ | ⟨_, h⟩)
  · exact ⟨rfl, by simpa using ht, rfl⟩
  · exact h.elim

theorem Meets.check {kind : TokenKind} {f : Bool → Parse α}
    (ht : Meets fuel k₁ (f true) R) (hn : Meets fuel k₂ (f false) S) :
    Meets fuel (min k₁ k₂) (check kind >>= f) fun ts n a rest n₁ =>
      ((∃ t ∈ ts.head?, t.kind = kind) ∧ R ts n a rest n₁) ∨
        ((∀ t ∈ ts.head?, t.kind ≠ kind) ∧ S ts n a rest n₁) := by
  intro c hc
  cases hb : c.rest.head?.any (·.kind = kind) with
  | true =>
    have hch : Parse.check kind c = .ok true c := by simp only [Parse.check, hb]
    rw [MeetsAt, bind_ok f hch]
    refine Outcome.mono (ht c hc) (Nat.le_refl _) (Nat.min_le_left _ _) fun a rest n h => .inl ⟨?_, h⟩
    simpa [Option.any_eq_true] using hb
  | false =>
    have hch : Parse.check kind c = .ok false c := by simp only [Parse.check, hb]
    rw [MeetsAt, bind_ok f hch]
    refine Outcome.mono (hn c hc) (Nat.le_refl _) (Nat.min_le_right _ _) fun a rest n h => .inr ⟨?_, h⟩
    intro t ht
    rw [Option.mem_def] at ht
    simpa [ht] using hb

end Grammar

end Treewalk

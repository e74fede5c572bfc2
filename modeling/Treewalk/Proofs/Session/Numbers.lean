import Mathlib.Data.List.Nodup
import Treewalk.Proofs.Grammar.Numbering
import Treewalk.Proofs.Session.Script

namespace Treewalk

/-- What a session is used for: to run what it is given, or to read a unit and leave it at that. -/
inductive Use
  | enter (entry : Entry)
  | read (source : String)

def Use.source? : Use → Option String
  | enter entry => entry.source?
  | read source => some source

namespace Session

def use (s : Session) : Use → Session
  | .enter entry => s.enter entry
  | .read source => (s.parse source).2.2

def trees : Session → List Use → List (List Stmt)
  | _, [] => []
  | s, u :: us => (u.source?.map fun source => (s.parse source).1).toList ++ (s.use u).trees us

variable {s : Session}

theorem nextId_runWith (s : Session) (fuel : Nat) (source : String) :
    (s.runWith fuel source).2.nextId = (s.parse source).2.2.nextId := by
  obtain ⟨-, h⟩ | ⟨-, -, h⟩ | ⟨-, h⟩ := s.runWith_cases fuel source <;> rw [h] <;> rfl

theorem nextId_use (s : Session) (u : Use) :
    (s.use u).nextId =
      (u.source?.map fun source => (s.parse source).2.2.nextId).getD s.nextId := by
  match u with
  | .enter (.native _) => rfl
  | .enter (.unit fuel source) => exact s.nextId_runWith fuel source
  | .read _ => rfl

theorem nextId_le_use (s : Session) (u : Use) : s.nextId ≤ (s.use u).nextId := by
  rw [nextId_use]
  cases u.source? with
  | none => exact Nat.le_refl _
  | some source => exact s.nextId_le_parse source

theorem nextId_le_uses (s : Session) (us : List Use) : s.nextId ≤ (us.foldl use s).nextId := by
  induction us generalizing s with
  | nil => exact Nat.le_refl _
  | cons u us ih => exact Nat.le_trans (s.nextId_le_use u) (ih (s.use u))

theorem numbered_use (s : Session) (u : Use) :
    Numbered s.nextId (s.use u).nextId
      ((u.source?.map fun source => (s.parse source).1).toList.flatMap Stmt.refsAll) := by
  rw [nextId_use]
  cases u.source? with
  | none => exact .nil
  | some source => simpa using s.numbered_parse source

theorem numbered_trees (s : Session) (us : List Use) :
    Numbered s.nextId (us.foldl use s).nextId ((s.trees us).flatMap Stmt.refsAll) := by
  induction us generalizing s with
  | nil => exact .nil
  | cons u us ih =>
    rw [trees, List.flatMap_append]
    exact (s.numbered_use u).append (ih (s.use u)) (s.nextId_le_use u) ((s.use u).nextId_le_uses us)

end Session

theorem Numbered.nodup_uint64 (h : Numbered n n₁ ids) (hn : n₁ ≤ n + UInt64.size) :
    (ids.map UInt64.ofNat).Nodup := by
  refine List.Nodup.map_on (fun i hi j hj he => ?_) h.1
  have hmod : i % UInt64.size = j % UInt64.size := by simpa using congrArg UInt64.toNat he
  have hi' := h.2 i hi
  have hj' := h.2 j hj
  simp only [UInt64.size] at hmod hn
  omega

namespace Session

/-- No two occurrences that were read in a session have one number, be it counted without end or in
a word of 64 bits. -/
theorem numbers_distinct (s : Session) (us : List Use)
    (h : (us.foldl use s).nextId ≤ s.nextId + UInt64.size) :
    ((s.trees us).flatMap Stmt.refsAll).Nodup ∧
      (((s.trees us).flatMap Stmt.refsAll).map UInt64.ofNat).Nodup :=
  ⟨(s.numbered_trees us).1, (s.numbered_trees us).nodup_uint64 h⟩

def exampleUses : List Use :=
  [.enter (.unit 20 "class A \x7b m() \x7b print this; \x7d \x7d"),
    .enter (.unit 20 "var a; a = a; var = 1; \x7b print a; print ; print a; \x7d"),
    .read "class B < A \x7b m() \x7b super.m(); \x7d \x7d"]

theorem numbers_distinct_uses :
    ((new .unlimited 0).trees exampleUses).flatMap Stmt.refsAll = [0, 2, 3, 4, 5, 6, 7] ∧
      ((((new .unlimited 0).trees exampleUses).flatMap Stmt.refsAll).map UInt64.ofNat).Nodup :=
  ⟨by decide +kernel,
    (numbers_distinct (new .unlimited 0) exampleUses (by decide +kernel)).2⟩

end Session

end Treewalk

import Treewalk.Proofs.Renaming.Text
import Treewalk.Proofs.SideBySide.Session

namespace Treewalk

open Run

namespace Session

def fresh (sink : Sink) (now : Float) (natives : List Native) : Session :=
  natives.foldl addNative (.new sink now)

theorem alike_fresh (w : Wording) (sink : Sink) (now : Float) {natives : List Native}
    (hf : ∀ native ∈ natives, native.Fixed) :
    (fresh sink now natives).Alike w (fun _ _ _ => False) #[false] (fresh sink now natives) := by
  have hall (s : Session) (h : s.Alike w (fun _ _ _ => False) #[false] s) :
      (natives.foldl addNative s).Alike w (fun _ _ _ => False) #[false]
        (natives.foldl addNative s) := by
    induction natives generalizing s with
    | nil => exact h
    | cons native natives ih =>
      rw [List.forall_mem_cons] at hf
      exact ih hf.2 _ (h.addNative hf.1)
  exact hall _ (alike_new w sink now)

/-- The statements of a unit with one local variable renamed. -/
def renamed (s : Session) (ρ : Renaming) (source : String) : List Stmt :=
  Stmt.renameAll ρ (s.prepared source).machine.distances [] 0 [] (s.parse source).1

section Renamed

variable {s : Session} {ρ : Renaming} {source : String}

theorem fits_parse (hu : ∀ i, s.nextId ≤ i → s.machine.distances[i]? = none)
    (ha : s.Accepts source) (hn : ρ.new ∉ Stmt.namesAll (s.parse source).1) :
    Stmt.BoundAll (s.prepared source).machine.distances ⟨.outside, .outside⟩ []
        (s.parse source).1 ∧
      Stmt.FitsAll ρ [] 0 [] (s.parse source).1 := by
  obtain ⟨-, hproper, hnum⟩ := formed_parse ha.parsed
  have hb : Stmt.BoundAll (s.prepared source).machine.distances ⟨.outside, .outside⟩ []
      (s.parse source).1 :=
    Stmt.boundAll_of_settles _ hproper (r := ⟨[], s.machine.distances, []⟩)
      ⟨hnum.1, fun i hi => hu i (hnum.2 i hi).1, ha.resolved, fun _ _ => rfl⟩
  exact ⟨hb, Stmt.fitsAll_of_bound _ hb hn [] 0 fun _ _ => nofun⟩

theorem exists_source (hw : Cut.isWord ρ.new.toList) (ha : s.Accepts source)
    (hf : Stmt.FitsAll ρ [] 0 [] (s.parse source).1) :
    ∃ source', (s.parse source').1 = s.renamed ρ source ∧ (s.parse source').2.1 = [] := by
  obtain ⟨-, hproper, -⟩ := formed_parse ha.parsed
  obtain ⟨ts, hts, hreads⟩ := (reads_parse ha.parsed).respell
    (Stmt.alike_renameAll (D := (s.prepared source).machine.distances) _ hproper hf) .nil
  obtain ⟨line, hscan, -⟩ := Scanned.scan_newline (List.append_eq_nil_iff.mp ha.parsed).1
  have hwhole : List.Forall₂ ρ.Respells ((Scanned.ofSource source).code ++ [⟨.eof, "", line⟩])
      (ts ++ [⟨.eof, "", line⟩]) := List.rel_append hts (.cons (.refl ρ _) .nil)
  obtain ⟨cs, hcs, -⟩ := Renaming.scanFrom_respell hw 1 source.toList
    (by rw [List.map_append]; exact hscan) hwhole
  have hcode : scan (String.ofList cs) = ts.map .token ++ [.token ⟨.eof, "", line⟩] := by
    rw [scan, String.toList_ofList, hcs, List.map_append]
    rfl
  have hkind := Renaming.Respells.forall_kind_ne hts fun _ => Scanned.ne_eof_of_mem_code
  have hts' : (Scanned.ofSource (String.ofList cs)).code = ts :=
    (Scanned.code_ofSource hkind hcode).trans (List.append_nil ts)
  rw [← hts'] at hreads
  exact ⟨String.ofList cs, parse_of_reads (Scanned.faults_ofSource hcode) hreads⟩

theorem accepts_renamed (ha : s.Accepts source)
    (hb : Stmt.BoundAll (s.prepared source).machine.distances ⟨.outside, .outside⟩ []
      (s.parse source).1) (hf : Stmt.FitsAll ρ [] 0 [] (s.parse source).1)
    (hs : (s.parse source').1 = s.renamed ρ source) (hp : (s.parse source').2.1 = []) :
    s.Accepts source' ∧
      (s.prepared source').machine.distances = (s.prepared source).machine.distances := by
  obtain ⟨-, hproper, -⟩ := formed_parse ha.parsed
  have halike : ρ.AlikeResolution [] (Treewalk.resolve (s.parse source).1 s.machine.distances)
      (Treewalk.resolve (s.renamed ρ source) s.machine.distances) :=
    Stmt.alike_resolveAll _ hproper hb hf ⟨.nil, rfl, id⟩
  rw [← hs] at halike
  exact ⟨⟨hp, halike.faults ha.resolved⟩, halike.distances⟩

end Renamed

/-- A local variable may be renamed to any name that does not occur: the renamed program has a text,
every text of it is accepted, and running it prints the same and ends the same. -/
theorem runWith_renamed (sink : Sink) (now : Float) (natives : List Native)
    (hf : ∀ native ∈ natives, native.Fixed) (ρ : Renaming) (hw : Cut.isWord ρ.new.toList)
    (source : String) (ha : (fresh sink now natives).Accepts source)
    (hn : ρ.new ∉ Stmt.namesAll ((fresh sink now natives).parse source).1) :
    let s := fresh sink now natives
    (∃ source', (s.parse source').1 = s.renamed ρ source ∧ (s.parse source').2.1 = []) ∧
      ∀ source', (s.parse source').1 = s.renamed ρ source → (s.parse source').2.1 = [] →
        s.Accepts source' ∧ ∀ fuel,
          ρ.wording.SameOutcome (s.runWith fuel source).1 (s.runWith fuel source').1 ∧
          (s.runWith fuel source').2.machine.sink = (s.runWith fuel source).2.machine.sink := by
  intro s
  have hself : s.Alike ρ.wording (fun _ _ _ => False) #[false] s :=
    alike_fresh ρ.wording sink now hf
  obtain ⟨hb, hfits⟩ := fits_parse hself.unused ha hn
  refine ⟨exists_source hw ha hfits, fun source' hs hp => ?_⟩
  obtain ⟨ha', hD⟩ := accepts_renamed ha hb hfits hs hp
  refine ⟨ha', fun fuel => ?_⟩
  have halike := Stmt.alike_renameAll (D := (s.prepared source).machine.distances) _
    (formed_parse ha.parsed).2.1 hfits
  have hmachine := hself.machine.settle (fun _ _ _ => False.elim)
    fun i i' d (hp : Pairing.table (s.prepared source).machine.distances i i' d) =>
      ⟨hp.2, show (s.prepared source').machine.distances[i']? = d by rw [hD, hp.1, hp.2]⟩
  have hagrees := agrees_interpret fuel halike hmachine hself.home
  rw [runWith_accepted ha, runWith_accepted ha', hs]
  exact hagrees.ends

theorem runWith_renamed_hiding :
    let s := fresh .unlimited 0 []
    let ρ : Renaming := ⟨"a", "b", by decide, by decide, [1]⟩
    let source := "var a = 1; \x7b var a = 2; print a; \x7d print a;"
    s.Accepts source ∧
      Stmt.namesAll (s.renamed ρ source) = ["a", "b", "b", "a"] ∧
      ∃ source', (s.parse source').1 = s.renamed ρ source ∧ s.Accepts source' ∧ ∀ fuel,
        ρ.wording.SameOutcome (s.runWith fuel source).1 (s.runWith fuel source').1 ∧
        (s.runWith fuel source').2.machine.sink = (s.runWith fuel source).2.machine.sink := by
  intro s ρ source
  have ha : s.Accepts source := ⟨by decide +kernel, by decide +kernel⟩
  obtain ⟨⟨source', hs, hp⟩, hall⟩ :=
    runWith_renamed .unlimited 0 [] nofun ρ (by decide) source ha (by decide +kernel)
  exact ⟨ha, by decide +kernel, source', hs, hall source' hs hp⟩

end Session

end Treewalk

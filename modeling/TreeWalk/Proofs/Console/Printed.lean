import TreeWalk.Proofs.Console.Joined
import TreeWalk.Proofs.Grammar.Printed
import TreeWalk.Proofs.Lexis.Rendering

/-! Printing the programs of sources. Where nothing but lines is different the texts are the same,
and without texts and infinities in the sources the texts are different where anything else is. -/
namespace TreeWalk

open Grammar

/-- What is read from a source without errors can be read from its printed form. -/
theorem isLegible_of_mem_programOf {source : String} (h : diagnosticsOf source = [])
    (hplain : ∀ s ∈ programOf source, ∀ v ∈ s.literals, v.IsPlain) :
    ∀ s ∈ programOf source, s.IsLegible := by
  obtain ⟨ds, hds, hinner, hprogram⟩ := exists_declarations h
  intro s hs
  have hliterals := hplain s hs
  rw [hprogram] at hs
  obtain ⟨d, hd, rfl⟩ := List.mem_map.1 hs
  obtain ⟨hspelled, hlayered⟩ := d.spells (hds d hd)
  refine hspelled.isLegible hlayered (fun t ht => ?_) hliterals
  have hmem : t ∈ innerTokensOf source := by
    rw [hinner]
    exact List.mem_flatMap_of_mem hd ht
  exact spells_of_mem_innerTokensOf hmem

/-- The printed form of a source without errors decides its program up to the lines of tokens. -/
theorem renderProgram_programOf_eq_iff {source source' : String} (h : diagnosticsOf source = [])
    (h' : diagnosticsOf source' = [])
    (hplain : ∀ s ∈ programOf source, ∀ v ∈ s.literals, v.IsPlain)
    (hplain' : ∀ s ∈ programOf source', ∀ v ∈ s.literals, v.IsPlain) :
    renderProgram (programOf source) = renderProgram (programOf source') ↔
      (programOf source).map (Stmt.mapTokens Token.unlined) =
        (programOf source').map (Stmt.mapTokens Token.unlined) := by
  constructor
  · exact Program.unlined_eq_of_renderProgram_eq (isLegible_of_mem_programOf h hplain)
      (isLegible_of_mem_programOf h' hplain')
  · intro hunlined
    rw [← renderProgram_mapTokens Token.lexeme_unlined, hunlined,
      renderProgram_mapTokens Token.lexeme_unlined]

/-- Two sources with other lines and other zeros, and both kinds of minus sign. -/
theorem renderProgram_programOf_eq_minus :
    let source := "x = -1 -\n2.50;"
    let source' := "// y\nx = - 1.0 - 2.5;"
    programOf source ≠ programOf source' ∧
      renderProgram (programOf source) = "(= x (- (- 1) 2.5));" ∧
      (programOf source).map (Stmt.mapTokens Token.unlined) =
        (programOf source').map (Stmt.mapTokens Token.unlined) := by
  intro source source'
  have hprogram : programOf source = [.expression (.assign ⟨.identifier, "x", 1⟩
      (.binary (.unary ⟨.symbol .minus, "-", 1⟩ (.literal (.number 1))) ⟨.symbol .minus, "-", 1⟩
        (.literal (.number 2.5))))] := by decide +kernel
  have hprogram' : programOf source' = [.expression (.assign ⟨.identifier, "x", 2⟩
      (.binary (.unary ⟨.symbol .minus, "-", 2⟩ (.literal (.number 1))) ⟨.symbol .minus, "-", 2⟩
        (.literal (.number 2.5))))] := by decide +kernel
  have hplain : ∀ v ∈ [Value.number 1, .number 2.5], v.IsPlain := by
    have hone : ¬(1 : Float).isInf := by decide +kernel
    have hhalves : ¬(2.5 : Float).isInf := by decide +kernel
    simp [Value.IsPlain, hone, hhalves]
  have hliterals : ∀ s ∈ programOf source, ∀ v ∈ s.literals, v.IsPlain := by
    rw [hprogram]
    exact List.forall_mem_singleton.2 hplain
  have hliterals' : ∀ s ∈ programOf source', ∀ v ∈ s.literals, v.IsPlain := by
    rw [hprogram']
    exact List.forall_mem_singleton.2 hplain
  have htext : renderProgram (programOf source) = "(= x (- (- 1) 2.5));" := by
    rw [hprogram]
    decide +kernel
  have htext' : renderProgram (programOf source') = "(= x (- (- 1) 2.5));" := by
    rw [hprogram']
    decide +kernel
  have hdiagnostics : diagnosticsOf source = [] := by decide +kernel
  have hdiagnostics' : diagnosticsOf source' = [] := by decide +kernel
  have hunlined := (renderProgram_programOf_eq_iff hdiagnostics hdiagnostics' hliterals
    hliterals').1 (htext.trans htext'.symm)
  refine ⟨?_, htext, hunlined⟩
  rw [hprogram, hprogram']
  simp

end TreeWalk

import Mathlib.Data.Set.Operations
import TreeWalk.Proofs.Semantics.Coupling

/-! What programs do not depend on: how their names are spelled, on which lines their tokens are,
how operators are written and how declarations are annotated. -/
namespace TreeWalk

/-- Names are renamed, whatever else their tokens have, and operators keep their kind. -/
def Correspondence.renamed (ρ : String → String) : Correspondence :=
  ⟨fun x x' => x'.lexeme = ρ x.lexeme, fun op op' => op'.kind = op.kind⟩

variable {ρ : String → String}

namespace Bindings

/-- The same variables under other names, and no more. -/
structure Renamed (ρ : String → String) (b b' : Bindings) : Prop where
  get?_eq : ∀ x, b'.get? (ρ x) = b.get? x
  get?_none : ∀ y, y ∉ Set.range ρ → b'.get? y = none

theorem renamed_empty : Renamed ρ {} {} := ⟨by simp, by simp⟩

/-- Names that are told apart are told apart by their new names. -/
theorem Renamed.define (hρ : Function.Injective ρ) {b b' : Bindings} (h : Renamed ρ b b')
    (x : String) (v : Value) : Renamed ρ (b.define x v) (b'.define (ρ x) v) where
  get?_eq y := by simp only [get?_define, hρ.eq_iff, h.get?_eq]
  get?_none y hy := by
    have hne : ρ x ≠ y := fun hxy => hy ⟨x, hxy⟩
    rw [get?_define_of_ne hne, h.get?_none y hy]

end Bindings

theorem Correspondence.couples_renamed (hρ : Function.Injective ρ) :
    (renamed ρ).Couples (Bindings.Renamed ρ) where
  kind_eq h := h
  get?_eq := by
    intro x x' b b' (hx : x'.lexeme = ρ x.lexeme) hb
    rw [hx, hb.get?_eq]
  define := by
    intro x x' b b' (hx : x'.lexeme = ρ x.lexeme) hb v
    rw [hx]
    exact hb.define hρ x.lexeme v

namespace Machine

/-- From no variables and with an output that takes everything, a program with other names, lines,
annotations and spellings of operators prints the same and leaves the same variables under their
other names. It is done if the first one is, or it fails as the first one does: at the same step of
the same statement, and for the same cause. -/
theorem run_renamed (hρ : Function.Injective ρ) {program program' : List Stmt}
    (h : List.Forall₂ (Stmt.Matches (.renamed ρ)) program program') {m : Machine}
    (hm : m.IsUnlimited) (hfresh : m.bindings = {}) :
    ∃ m₁ m₁', m₁'.output = m₁.output ∧ m₁.bindings.Renamed ρ m₁'.bindings ∧
      ((run program m = .ok () m₁ ∧ run program' m = .ok () m₁') ∨
        ∃ n k f f', run program m = .error (.fault f) m₁ ∧
          run program' m = .error (.fault f') m₁' ∧ f.Matches (.renamed ρ) f' ∧
          FailsAt program m n k f m₁ ∧ FailsAt program' m n k f' m₁') := by
  obtain ⟨b, text, room⟩ := m
  obtain rfl : room = none := hm
  obtain rfl : b = {} := hfresh
  cases endAlike (Correspondence.couples_renamed hρ) h (.intro Bindings.renamed_empty text) with
  | @done m₁ m₁' hrun hrun' hm₁ =>
    refine ⟨m₁, m₁', ?_, ?_, .inl ⟨hrun, hrun'⟩⟩
    · cases hm₁
      rfl
    · cases hm₁
      assumption
  | @stop n k f f' m₁ m₁' hfails hfails' hf hm₁ =>
    refine ⟨m₁, m₁', ?_, ?_, .inr ⟨n, k, f, f', hfails.run_eq, hfails'.run_eq, hf, hfails, hfails'⟩⟩
    · cases hm₁
      rfl
    · cases hm₁
      assumption

/-- Both `var x :: number; y = x;` and `var ux :: text; uy = ux;` fail at the assignment of the
second statement, when the value of the first name is known. -/
theorem run_renamed_assignment :
    let program (x y type : String) (line : Nat) : List Stmt :=
      [.declare ⟨.identifier, x, line⟩ ⟨.identifier, type, line⟩ none,
        .expression (.assign ⟨.identifier, y, line⟩ (.reference ⟨.identifier, x, line⟩))]
    ∃ n k f f' m m', f = .runtime ⟨⟨.identifier, "y", 1⟩, .undefinedVariable⟩ ∧
      FailsAt (program "x" "y" "number" 1) {} n k f m ∧
      FailsAt (program "ux" "uy" "text" 7) {} n k f' m' ∧
      m'.bindings.get? "ux" = some .absent := by
  intro program
  have hρ : Function.Injective ("u" ++ ·) := fun s t h => by simpa using h
  have hmatches : List.Forall₂ (Stmt.Matches (.renamed ("u" ++ ·))) (program "x" "y" "number" 1)
      (program "ux" "uy" "text" 7) :=
    .cons (.declareOnly rfl _ _) (.cons (.expression (.assign rfl (.reference rfl))) .nil)
  have hx : (({} : Bindings).define "x" .absent).get? "x" = some .absent :=
    Bindings.get?_define_self _ _ _
  have hy : (({} : Bindings).define "x" .absent).get? "y" = none := by simp [Bindings.get?_define]
  have hrun : run (program "x" "y" "number" 1) {} =
      .error (.fault (.runtime ⟨⟨.identifier, "y", 1⟩, .undefinedVariable⟩))
        { bindings := ({} : Bindings).define "x" .absent } := by
    simp only [program, run_cons, Stmt.exec_declare_none, Stmt.exec_expression, Expr.eval_assign,
      Expr.eval_reference, Evaluation.read, Evaluation.assign, Bindings.read, Bindings.assign, hx,
      hy]
  obtain ⟨m, m', -, hbindings, hends⟩ := run_renamed hρ hmatches (m := {}) rfl rfl
  rcases hends with ⟨hdone, -⟩ | ⟨n, k, f, f', hfailed, -, -, hfails, hfails'⟩
  · rw [hrun] at hdone
    cases hdone
  · rw [hrun] at hfailed
    cases hfailed
    exact ⟨n, k, _, f', _, m', rfl, hfails, hfails', (hbindings.get?_eq "x").trans hx⟩

end Machine

end TreeWalk

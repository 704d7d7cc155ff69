import TreeWalk.Proofs.Grammar.Legible

/-! Printed statements and programs. A line that begins with a statement decides it, up to the lines
of its tokens, and so the text of a program decides the program. -/
namespace TreeWalk

namespace Stmt

/-- The brackets of a printed statement. -/
def form : Stmt → Form
  | expression e => e.form
  | print e => .node "print".toList [e.form]
  | declare name type initial =>
    .node "var".toList (.word name.lexeme.toList :: .word "::".toList ::
      .word type.lexeme.toList :: (initial.map Expr.form).toList)

/-- What comes after its form. -/
def closing : Stmt → List Char
  | expression _ => [';']
  | print _ | declare _ _ _ => []

theorem toList_render (s : Stmt) : s.render.toList = s.form.text ++ s.closing := by
  cases s with
  | expression e => simp [render, form, closing, Expr.toList_render]
  | print e => simp [render, form, closing, Form.text, Form.textArgs, Expr.toList_render]
  | declare name type initial =>
    cases initial <;>
      simp [render, form, closing, Form.text, Form.textArgs, Expr.toList_render]

def literals : Stmt → List Value
  | expression e | print e => e.literals
  | declare _ _ initial => initial.toList.flatMap Expr.literals

def IsLegible : Stmt → Prop
  | expression e | print e => e.IsLegible
  | declare name type initial => name.IsName ∧ type.IsName ∧ ∀ e ∈ initial, e.IsLegible

theorem SpelledBy.isLegible {s : Stmt} {ts : List Token} (h : s.SpelledBy ts) (hs : s.IsLayered)
    (hts : ∀ t ∈ ts, t.IsSpelled) (hplain : ∀ v ∈ s.literals, v.IsPlain) : s.IsLegible := by
  cases h with
  | expression he closing =>
    exact he.isLegible hs (List.forall_mem_append.1 hts).1 hplain
  | print opening he closing =>
    obtain ⟨-, hrest⟩ := List.forall_mem_cons.1 hts
    exact he.isLegible hs (List.forall_mem_append.1 hrest).1 hplain
  | @declare opening name colons type equals e us he closing =>
    obtain ⟨hname, htype, hinitial⟩ := hs
    have he' : e.IsLegible := by
      refine he.isLegible (hinitial e rfl) (fun t ht => hts t (by simp [ht])) fun v hv => ?_
      exact hplain v (by simp [literals, hv])
    exact ⟨⟨hname, hts name (by simp)⟩, ⟨htype, hts type (by simp)⟩, by simpa using he'⟩
  | declareOnly opening name colons type closing =>
    exact ⟨⟨hs.1, hts name (by simp)⟩, ⟨hs.2.1, hts type (by simp)⟩, by simp⟩

variable {s s' : Stmt}

theorem IsLegible.isPlain (h : s.IsLegible) : s.form.IsPlain := by
  cases s with
  | expression e => exact Expr.IsLegible.isPlain h
  | print e =>
    have he := Expr.IsLegible.isPlain h
    exact .node (by decide) (by simp [he])
  | declare name type initial =>
    obtain ⟨hname, htype, hinitial⟩ := h
    have hcolons : Form.IsWord "::".toList := by decide
    refine .node (by decide) ?_
    simp only [List.forall_mem_cons]
    refine ⟨.word hname.isWord, .word hcolons, .word htype.isWord, ?_⟩
    intro f hf
    obtain ⟨e, he, rfl⟩ := List.mem_map.1 (Option.toList_map .. ▸ hf)
    exact (hinitial e (Option.mem_toList.1 he)).isPlain

/-- Legible statements with the same form and the same end differ at most in lines. -/
theorem IsLegible.unlined_eq (h : s.IsLegible) (h' : s'.IsLegible) (hform : s.form = s'.form)
    (hclosing : s.closing = s'.closing) :
    s.mapTokens Token.unlined = s'.mapTokens Token.unlined := by
  cases s with
  | expression e =>
    cases s' with
    | expression e' => exact congrArg expression (Expr.IsLegible.unlined_eq h h' hform)
    | _ => cases hclosing
  | print e =>
    cases s' with
    | expression e' => cases hclosing
    | print e' =>
      simp only [form, Form.node.injEq, List.cons.injEq, true_and, and_true] at hform
      exact congrArg print (Expr.IsLegible.unlined_eq h h' hform)
    | declare name' type' initial' => simp [form] at hform
  | declare name type initial =>
    cases s' with
    | expression e' => cases hclosing
    | print e' => simp [form] at hform
    | declare name' type' initial' =>
      obtain ⟨hname, htype, hinitial⟩ := h
      obtain ⟨hname', htype', hinitial'⟩ := h'
      simp only [form, Form.node.injEq, List.cons.injEq, Form.word.injEq, true_and] at hform
      obtain ⟨hnames, htypes, hforms⟩ := hform
      have hinitials : initial.map (Expr.mapTokens Token.unlined) =
          initial'.map (Expr.mapTokens Token.unlined) := by
        cases initial with
        | none =>
          cases initial' with
          | none => rfl
          | some e' => simp at hforms
        | some e =>
          cases initial' with
          | none => simp at hforms
          | some e' =>
            have heq : e.form = e'.form := by simpa using hforms
            simp [(hinitial e rfl).unlined_eq (hinitial' e' rfl) heq]
      rw [mapTokens, mapTokens, hname.2.unlined_eq hname'.2 hnames,
        htype.2.unlined_eq htype'.2 htypes, hinitials]

/-- What comes after a statement begins with a new line, if there is anything. -/
def EndsLine (rest : List Char) : Prop := ∀ c ∈ rest.head?, c = '\n'

theorem closing_append_inj {r r' : List Char} (hr : EndsLine r) (hr' : EndsLine r')
    (h : s.closing ++ r = s'.closing ++ r') : s.closing = s'.closing ∧ r = r' := by
  have hclosing (t : Stmt) : t.closing = [';'] ∨ t.closing = [] := by cases t <;> simp [closing]
  rcases hclosing s with hs | hs <;> rcases hclosing s' with hs' | hs' <;> rw [hs, hs'] at h ⊢
  · exact ⟨rfl, (List.cons.inj h).2⟩
  · obtain rfl : ';' :: r = r' := h
    exact absurd (hr' _ rfl) (by decide)
  · obtain rfl : r = ';' :: r' := h
    exact absurd (hr _ rfl) (by decide)
  · exact ⟨rfl, h⟩

theorem ends_closing_append (s : Stmt) {r : List Char} (hr : EndsLine r) :
    Form.Ends (s.closing ++ r) := by
  have hline : Form.Ends r := by
    intro c hc
    rw [hr c hc]
    decide
  cases s with
  | expression e => exact Form.ends_cons (by decide) r
  | print e => exact hline
  | declare name type initial => exact hline

/-- A line begins with at most one statement. -/
theorem IsLegible.render_append_inj (h : s.IsLegible) (h' : s'.IsLegible) {r r' : List Char}
    (hr : EndsLine r) (hr' : EndsLine r') (heq : s.render.toList ++ r = s'.render.toList ++ r') :
    s.mapTokens Token.unlined = s'.mapTokens Token.unlined ∧ r = r' := by
  rw [toList_render, toList_render, List.append_assoc, List.append_assoc] at heq
  obtain ⟨hform, hrest⟩ := Form.text_append_inj h.isPlain h'.isPlain (s.ends_closing_append hr)
    (s'.ends_closing_append hr') heq
  obtain ⟨hclosing, rfl⟩ := closing_append_inj hr hr' hrest
  exact ⟨h.unlined_eq h' hform hclosing, rfl⟩

end Stmt

namespace Program

/-- The text of a program, with a new line before each statement. -/
def lines (program : List Stmt) : List Char := program.flatMap fun s => '\n' :: s.render.toList

theorem endsLine_lines (program : List Stmt) : Stmt.EndsLine (lines program) := by
  cases program with
  | nil => simp [Stmt.EndsLine, lines]
  | cons s program => simp [Stmt.EndsLine, lines]

theorem toList_renderProgram_cons (s : Stmt) (program : List Stmt) :
    (renderProgram (s :: program)).toList = s.render.toList ++ lines program := by
  rw [renderProgram, String.toList_intercalate]
  induction program generalizing s with
  | nil => simp [lines]
  | cons t program ih =>
    simp only [List.map_cons] at ih
    simp only [List.map_cons, List.intercalate_cons_cons, ih, lines, List.flatMap_cons]
    simp

theorem renderProgram_cons_ne_nil (s : Stmt) (program : List Stmt) :
    (renderProgram (s :: program)).toList ≠ [] := by
  rw [toList_renderProgram_cons, Stmt.toList_render]
  cases s with
  | expression e => simp [Stmt.closing]
  | print e => simp [Stmt.form, Form.text]
  | declare name type initial => simp [Stmt.form, Form.text]

theorem unlined_eq_of_lines_eq {ps qs : List Stmt} (hps : ∀ s ∈ ps, s.IsLegible)
    (hqs : ∀ s ∈ qs, s.IsLegible) (h : lines ps = lines qs) :
    ps.map (Stmt.mapTokens Token.unlined) = qs.map (Stmt.mapTokens Token.unlined) := by
  induction ps generalizing qs with
  | nil =>
    cases qs with
    | nil => rfl
    | cons t qs => simp [lines] at h
  | cons s ps ih =>
    cases qs with
    | nil => simp [lines] at h
    | cons t qs =>
      obtain ⟨hs, hps⟩ := List.forall_mem_cons.1 hps
      obtain ⟨ht, hqs⟩ := List.forall_mem_cons.1 hqs
      obtain ⟨hst, hrest⟩ := hs.render_append_inj ht (endsLine_lines ps) (endsLine_lines qs)
        (List.cons.inj h).2
      rw [List.map_cons, List.map_cons, hst, ih hps hqs hrest]

theorem unlined_eq_of_renderProgram_eq {ps qs : List Stmt} (hps : ∀ s ∈ ps, s.IsLegible)
    (hqs : ∀ s ∈ qs, s.IsLegible) (h : renderProgram ps = renderProgram qs) :
    ps.map (Stmt.mapTokens Token.unlined) = qs.map (Stmt.mapTokens Token.unlined) := by
  cases ps with
  | nil =>
    cases qs with
    | nil => rfl
    | cons t qs => exact absurd (congrArg String.toList h).symm (renderProgram_cons_ne_nil t qs)
  | cons s ps =>
    cases qs with
    | nil => exact absurd (congrArg String.toList h) (renderProgram_cons_ne_nil s ps)
    | cons t qs =>
      -- With a line feed in front of both, every statement begins a line of its own.
      refine unlined_eq_of_lines_eq hps hqs ?_
      show '\n' :: (s.render.toList ++ lines ps) = '\n' :: (t.render.toList ++ lines qs)
      rw [← toList_renderProgram_cons, ← toList_renderProgram_cons, h]

end Program

/-- Printing shows the lexemes of tokens, and nothing else of them. -/
theorem Expr.render_mapTokens {f : Token → Token} (hf : ∀ t, (f t).lexeme = t.lexeme) (e : Expr) :
    (e.mapTokens f).render = e.render := by
  induction e with
  | assign name value ih => rw [mapTokens, render, render, hf, ih]
  | binary left op right ihl ihr => rw [mapTokens, render, render, hf, ihl, ihr]
  | grouping inner ih => rw [mapTokens, render, render, ih]
  | literal v => rfl
  | unary op right ih => rw [mapTokens, render, render, hf, ih]
  | reference name => exact hf name

theorem Stmt.render_mapTokens {f : Token → Token} (hf : ∀ t, (f t).lexeme = t.lexeme) (s : Stmt) :
    (s.mapTokens f).render = s.render := by
  cases s with
  | expression e => rw [mapTokens, render, render, Expr.render_mapTokens hf]
  | print e => rw [mapTokens, render, render, Expr.render_mapTokens hf]
  | declare name type initial =>
    cases initial with
    | none => rw [mapTokens, Option.map_none, render, render, hf, hf]
    | some e =>
      rw [mapTokens, Option.map_some, render, render, hf, hf]
      simp only [Expr.render_mapTokens hf]

theorem renderProgram_mapTokens {f : Token → Token} (hf : ∀ t, (f t).lexeme = t.lexeme)
    (program : List Stmt) :
    renderProgram (program.map (Stmt.mapTokens f)) = renderProgram program := by
  rw [renderProgram, renderProgram, List.map_map]
  congr 1
  exact List.map_congr_left fun s _ => s.render_mapTokens hf

end TreeWalk

import TreeWalk.Proofs.Grammar.Form
import TreeWalk.Proofs.Grammar.Layering
import TreeWalk.Proofs.Grammar.WellFormed
import TreeWalk.Proofs.Lexis.Layout
import TreeWalk.Proofs.Text.Unsigned

/-! Printed expressions. Their texts are forms, and those of what has been scanned decide the
expression up to the lines of its tokens. Of literals only texts and infinities can look like
something else. -/
namespace TreeWalk

open Grammar

namespace Segment.Spells

variable {kind : Token.Kind} {text : List Char}

/-- Names, keywords and numbers have no character that ends a word. -/
theorem isWord (h : Spells (.token kind) text) (hsymbol : ∀ s, kind ≠ .symbol s)
    (hstring : ∀ s, kind ≠ .string s) : Form.IsWord text := by
  have hname (c : Char) (hc : continuesName c) : c ≠ '(' ∧ c ∉ Form.stops := by
    constructor
    · rintro rfl
      exact absurd hc (by decide)
    · intro hmem
      simp only [Form.stops, List.mem_cons, List.not_mem_nil, or_false] at hmem
      rcases hmem with rfl | rfl | rfl | rfl <;> exact absurd hc (by decide)
  have hdigit (c : Char) (hc : c.isDigit) : c ≠ '(' ∧ c ∉ Form.stops :=
    hname c (by rw [continuesName, hc, Bool.or_true])
  have hstart (c : Char) (hc : startsName c) : c ≠ '(' ∧ c ∉ Form.stops :=
    hname c (by rw [continuesName, hc, Bool.true_or])
  cases h with
  | symbol h => exact absurd rfl (hsymbol _)
  | string h => exact absurd rfl (hstring _)
  | @keyword k text h =>
    obtain ⟨c, cs, hk, hc, hcs⟩ := k.spelled
    rw [← h, hk]
    exact List.forall_mem_cons.2 ⟨hstart c hc, fun d hd => hname d (hcs d hd)⟩
  | name hc hw hk => exact List.forall_mem_cons.2 ⟨hstart _ hc, fun d hd => hname d (hw d hd)⟩
  | whole hne hd => exact fun d hmem => hdigit d (hd d hmem)
  | fractional hne hd hp hpd =>
    refine List.forall_mem_append.2 ⟨fun d hmem => hdigit d (hd d hmem), ?_⟩
    exact List.forall_mem_cons.2 ⟨by decide, fun d hmem => hdigit d (hpd d hmem)⟩

end Segment.Spells

namespace Value

/-- No text, and no infinity. -/
def IsPlain : Value → Prop
  | text _ => False
  | number x => ¬x.isInf
  | _ => True

/-- It is displayed as a token that denotes it. -/
def IsLegible (v : Value) : Prop :=
  ∃ kind, Denotes kind v ∧ (∀ s, kind ≠ .string s) ∧
    Segment.Spells (.token kind) v.display.toList

theorem isLegible_of_denotes {kind : Token.Kind} {v : Value} (hv : Denotes kind v)
    {text : List Char} (htext : Segment.Spells (.token kind) text) (hplain : v.IsPlain) :
    v.IsLegible := by
  cases hv with
  | string s => exact hplain.elim
  | number x =>
    refine ⟨.number x, .number x, by simp, ?_⟩
    cases htext with
    | whole => exact Decimal.spells_positionalText_toFloat hplain
    | fractional => exact Decimal.spells_positionalText_toFloat hplain
  | isTrue => exact ⟨_, .isTrue, by simp, .keyword rfl⟩
  | isFalse => exact ⟨_, .isFalse, by simp, .keyword rfl⟩
  | isNone => exact ⟨_, .isNone, by simp, .keyword rfl⟩

variable {v : Value}

theorem IsLegible.isWord (h : v.IsLegible) : Form.IsWord v.display.toList := by
  obtain ⟨kind, hv, hstring, hspells⟩ := h
  refine hspells.isWord (fun s hs => ?_) hstring
  rw [hs] at hv
  cases hv

theorem IsLegible.eq {w : Value} (hv : v.IsLegible) (hw : w.IsLegible)
    (h : v.display.toList = w.display.toList) : v = w := by
  obtain ⟨kind, hdenotes, -, hspells⟩ := hv
  obtain ⟨kind', hdenotes', -, hspells'⟩ := hw
  rw [← h] at hspells'
  obtain rfl : kind = kind' := Segment.Shape.token.inj (hspells.unique hspells')
  rw [denotes_iff] at hdenotes hdenotes'
  exact Option.some.inj (hdenotes.symm.trans hdenotes')

end Value

namespace Token

def IsSpelled (t : Token) : Prop := Segment.Spells (.token t.kind) t.lexeme.toList

def IsName (t : Token) : Prop := t.kind = .identifier ∧ t.IsSpelled

variable {t u : Token}

theorem IsSpelled.unlined_eq (ht : t.IsSpelled) (hu : u.IsSpelled)
    (h : t.lexeme.toList = u.lexeme.toList) : t.unlined = u.unlined := by
  rw [IsSpelled, ← h] at hu
  have hkind : t.kind = u.kind := Segment.Shape.token.inj (ht.unique hu)
  rw [unlined, unlined, hkind, String.toList_inj.1 h]

theorem IsName.isWord (ht : t.IsName) : Form.IsWord t.lexeme.toList := by
  refine ht.2.isWord ?_ ?_ <;> simp [ht.1]

/-- No literal is displayed like a name. -/
theorem IsName.lexeme_ne (ht : t.IsName) {v : Value} (hv : v.IsLegible) :
    t.lexeme.toList ≠ v.display.toList := by
  obtain ⟨kind, hdenotes, -, hspells⟩ := hv
  intro h
  have hname := ht.2
  rw [IsSpelled, ht.1, h] at hname
  obtain rfl : kind = .identifier := Segment.Shape.token.inj (hspells.unique hname)
  cases hdenotes

/-- Operators are words, and not written like the other heads of expressions. -/
theorem lexeme_of_isOperator (ht : t.IsOperator ∧ t.IsSpelled) : Form.IsWord t.lexeme.toList ∧
    t.lexeme.toList ≠ ['='] ∧ t.lexeme.toList ≠ "group".toList := by
  obtain ⟨⟨s, hs, hkind⟩, hspells⟩ := ht
  have hall : ∀ s ∈ binarySymbols ++ signs, Form.IsWord s.spelling.toList ∧
      s.spelling.toList ≠ ['='] ∧ s.spelling.toList ≠ "group".toList := by decide
  rw [IsSpelled, hkind] at hspells
  cases hspells with
  | symbol h =>
    rw [← h]
    exact hall s hs

end Token

namespace Expr

/-- The brackets of a printed expression. -/
def form : Expr → Form
  | assign name value => .node ['='] [.word name.lexeme.toList, value.form]
  | binary left op right => .node op.lexeme.toList [left.form, right.form]
  | grouping inner => .node "group".toList [inner.form]
  | literal v => .word v.display.toList
  | unary op right => .node op.lexeme.toList [right.form]
  | reference name => .word name.lexeme.toList

theorem toList_render (e : Expr) : e.render.toList = e.form.text := by
  induction e with
  | assign name value ih => simp [render, form, Form.text, Form.textArgs, ih]
  | binary left op right ihl ihr => simp [render, form, Form.text, Form.textArgs, ihl, ihr]
  | grouping inner ih => simp [render, form, Form.text, Form.textArgs, ih]
  | literal v => rfl
  | unary op right ih => simp [render, form, Form.text, Form.textArgs, ih]
  | reference name => rfl

def literals : Expr → List Value
  | assign _ value => value.literals
  | binary left _ right => left.literals ++ right.literals
  | grouping inner => inner.literals
  | literal v => [v]
  | unary _ right => right.literals
  | reference _ => []

/-- Every token is spelled as what it is at its place, and every literal displayed so. -/
def IsLegible : Expr → Prop
  | assign name value => name.IsName ∧ value.IsLegible
  | binary left op right =>
    (op.IsOperator ∧ op.IsSpelled) ∧ left.IsLegible ∧ right.IsLegible
  | grouping inner => inner.IsLegible
  | literal v => v.IsLegible
  | unary op right => (op.IsOperator ∧ op.IsSpelled) ∧ right.IsLegible
  | reference name => name.IsName

theorem SpelledBy.isLegible {e : Expr} {ts : List Token} (h : e.SpelledBy ts) (he : e.IsLayered)
    (hts : ∀ t ∈ ts, t.IsSpelled) (hplain : ∀ v ∈ e.literals, v.IsPlain) : e.IsLegible := by
  induction h with
  | assign name equals hv ih =>
    obtain ⟨hname, hrest⟩ := List.forall_mem_cons.1 hts
    exact ⟨⟨he.1, hname⟩, ih he.2 (List.forall_mem_cons.1 hrest).2 hplain⟩
  | binary op hl hr ihl ihr =>
    obtain ⟨⟨tier, htier, -⟩, hleft, hright⟩ := he
    obtain ⟨hls, hrest⟩ := List.forall_mem_append.1 hts
    obtain ⟨hop, hrs⟩ := List.forall_mem_cons.1 hrest
    obtain ⟨hpl, hpr⟩ := List.forall_mem_append.1 hplain
    obtain ⟨s, hs, hkind⟩ := mem_binarySymbols_of_tier? htier
    exact ⟨⟨⟨s, List.mem_append_left _ hs, hkind⟩, hop⟩, ihl hleft hls hpl, ihr hright hrs hpr⟩
  | grouping opening hi closing ih =>
    have hinner := (List.forall_mem_append.1 (List.forall_mem_cons.1 hts).2).1
    exact ih he hinner hplain
  | literal t v h =>
    exact Value.isLegible_of_denotes h (hts t (by simp)) (hplain v (by simp [literals]))
  | unary op hr ih =>
    obtain ⟨hop, hrs⟩ := List.forall_mem_cons.1 hts
    obtain ⟨s, hs, hkind⟩ := isUnary_iff.1 he.1
    exact ⟨⟨⟨s, List.mem_append_right _ hs, hkind⟩, hop⟩, ih he.2.2 hrs hplain⟩
  | reference name => exact ⟨he, hts name (by simp)⟩

theorem IsLegible.isPlain {e : Expr} (h : e.IsLegible) : e.form.IsPlain := by
  induction e with
  | assign name value ih =>
    have hvalue := ih h.2
    exact .node (by decide) (by simp [hvalue, Form.IsPlain.word h.1.isWord])
  | binary left op right ihl ihr =>
    have hleft := ihl h.2.1
    have hright := ihr h.2.2
    exact .node (Token.lexeme_of_isOperator h.1).1 (by simp [hleft, hright])
  | grouping inner ih =>
    have hinner := ih h
    exact .node (by decide) (by simp [hinner])
  | literal v => exact .word h.isWord
  | unary op right ih =>
    have hright := ih h.2
    exact .node (Token.lexeme_of_isOperator h.1).1 (by simp [hright])
  | reference name => exact .word h.isWord

/-- Legible expressions with the same form differ at most in lines. -/
theorem IsLegible.unlined_eq {e e' : Expr} (h : e.IsLegible) (h' : e'.IsLegible)
    (hform : e.form = e'.form) : e.mapTokens Token.unlined = e'.mapTokens Token.unlined := by
  -- The two minus signs have one head, and are told apart by the number of arguments.
  induction e generalizing e' with
  | assign name value ih =>
    cases e' with
    | assign name' value' =>
      simp only [form, Form.node.injEq, List.cons.injEq, Form.word.injEq, true_and,
        and_true] at hform
      rw [mapTokens, mapTokens, h.1.2.unlined_eq h'.1.2 hform.1, ih h.2 h'.2 hform.2]
    | binary left op right =>
      exact absurd (Form.node.inj hform).1.symm (Token.lexeme_of_isOperator h'.1).2.1
    | _ => simp [form] at hform
  | binary left op right ihl ihr =>
    cases e' with
    | assign name value => exact absurd (Form.node.inj hform).1 (Token.lexeme_of_isOperator h.1).2.1
    | binary left' op' right' =>
      simp only [form, Form.node.injEq, List.cons.injEq, and_true] at hform
      rw [mapTokens, mapTokens, h.1.2.unlined_eq h'.1.2 hform.1, ihl h.2.1 h'.2.1 hform.2.1,
        ihr h.2.2 h'.2.2 hform.2.2]
    | _ => simp [form] at hform
  | grouping inner ih =>
    cases e' with
    | grouping inner' =>
      simp only [form, Form.node.injEq, List.cons.injEq, true_and, and_true] at hform
      have hinner' : inner'.IsLegible := h'
      rw [mapTokens, mapTokens, ih h hinner' hform]
    | unary op right =>
      exact absurd (Form.node.inj hform).1.symm (Token.lexeme_of_isOperator h'.1).2.2
    | _ => simp [form] at hform
  | literal v =>
    cases e' with
    | literal v' => rw [h.eq h' (Form.word.inj hform)]
    | reference name => exact absurd (Form.word.inj hform).symm (h'.lexeme_ne h)
    | _ => simp [form] at hform
  | unary op right ih =>
    cases e' with
    | grouping inner => exact absurd (Form.node.inj hform).1 (Token.lexeme_of_isOperator h.1).2.2
    | unary op' right' =>
      simp only [form, Form.node.injEq, List.cons.injEq, and_true] at hform
      rw [mapTokens, mapTokens, h.1.2.unlined_eq h'.1.2 hform.1, ih h.2 h'.2 hform.2]
    | _ => simp [form] at hform
  | reference name =>
    cases e' with
    | literal v => exact absurd (Form.word.inj hform) (h.lexeme_ne h')
    | reference name' => rw [mapTokens, mapTokens, h.2.unlined_eq h'.2 (Form.word.inj hform)]
    | _ => simp [form] at hform

end Expr

end TreeWalk

import TreeWalk.Proofs.Grammar.Reader

/-! The grammar of programs, as the trees of its derivations. A derivation has tokens at its leaves;
it spells their list, and stands for a tree of expressions and statements. An assignment is derived
with any chain left of its equals sign; in a proper derivation this is a name alone. -/
namespace TreeWalk

namespace Grammar

/-- The binary operators of a tier. -/
def operators : Tier → List Symbol
  | .unary => []
  | .factor => [.slash, .star]
  | .term => [.minus, .plus]
  | .comparison => [.greater, .greaterEqual, .less, .lessEqual]
  | .equality => [.bangEqual, .equalEqual]

def signs : List Symbol := [.bang, .minus]

/-- A token that is one of the given symbols. -/
abbrev OneOf (symbols : List Symbol) := { t : Token // ∃ s ∈ symbols, t.kind = .symbol s }

/-- Tokens that are an expression of their own, with its value. -/
inductive Denotes : Token.Kind → Value → Prop
  | number (x : Float) : Denotes (.number x) (.number x)
  | string (s : String) : Denotes (.string s) (.text s)
  | isTrue : Denotes (.keyword .trueKw) (.boolean true)
  | isFalse : Denotes (.keyword .falseKw) (.boolean false)
  | isNone : Denotes (.keyword .noneKw) .absent

/-- What the grammar derives inside statements. A tail is what may follow the first operand of a
chain: operators of its tier, each with a right operand. -/
inductive Phrase
  | assignment
  | tier (t : Tier)
  | tail (t : Tier)
  | primary

inductive Derivation : Phrase → Type
  | plain (e : Derivation (.tier .equality)) : Derivation .assignment
  | assign (left : Derivation (.tier .equality)) (equals : Terminal (.symbol .equal))
      (value : Derivation .assignment) : Derivation .assignment
  | chain {t : Tier} (ht : t ≠ .unary) (first : Derivation (.tier t.operand))
      (more : Derivation (.tail t)) : Derivation (.tier t)
  | done {t : Tier} : Derivation (.tail t)
  | link {t : Tier} (op : OneOf (operators t)) (right : Derivation (.tier t.operand))
      (more : Derivation (.tail t)) : Derivation (.tail t)
  | signed (sign : OneOf signs) (right : Derivation (.tier .unary)) : Derivation (.tier .unary)
  | primary (e : Derivation .primary) : Derivation (.tier .unary)
  | literal (t : Token) (v : Value) (h : Denotes t.kind v) : Derivation .primary
  | reference (name : Terminal .identifier) : Derivation .primary
  | grouping (opening : Terminal (.symbol .leftParen)) (inner : Derivation .assignment)
      (closing : Terminal (.symbol .rightParen)) : Derivation .primary

/-- What a phrase stands for. -/
abbrev Phrase.Tree : Phrase → Type
  | .tail _ => List (Token × Expr)
  | _ => Expr

/-- The name that a token list is, if it is a name and nothing else. -/
def target? : List Token → Option Token
  | [t] => if t.kind = .identifier then some t else none
  | _ => none

/-- Operators with their right operands, applied one after another. -/
def applyAll (left : Expr) (links : List (Token × Expr)) : Expr :=
  links.foldl (fun e link => .binary e link.1 link.2) left

namespace Derivation

/-- A primary as an expression of every tier. -/
def ofPrimary (e : Derivation .primary) : Derivation (.tier .equality) :=
  chain (by decide) (chain (by decide) (chain (by decide) (chain (by decide) (primary e) done) done)
    done) done

/-- An operand as an expression of its own. -/
def ofUnary (e : Derivation (.tier .unary)) : Derivation .assignment :=
  plain (chain (by decide) (chain (by decide) (chain (by decide) (chain (by decide) e done) done)
    done) done)

def tokens : {p : Phrase} → Derivation p → List Token
  | _, plain e => e.tokens
  | _, assign left equals value => left.tokens ++ equals.val :: value.tokens
  | _, chain _ first more => first.tokens ++ more.tokens
  | _, done => []
  | _, link op right more => op.val :: (right.tokens ++ more.tokens)
  | _, signed sign right => sign.val :: right.tokens
  | _, primary e => e.tokens
  | _, literal t _ _ => [t]
  | _, reference name => [name.val]
  | _, grouping opening inner closing => opening.val :: (inner.tokens ++ [closing.val])

/-- An assignment to what is no name stands for its left side. -/
def tree : {p : Phrase} → Derivation p → p.Tree
  | _, plain e => e.tree
  | _, assign left _ value =>
    match target? left.tokens with
    | some name => .assign name value.tree
    | none => left.tree
  | _, chain _ first more => applyAll first.tree more.tree
  | _, done => []
  | _, link op right more => (op.val, right.tree) :: more.tree
  | _, signed sign right => .unary sign.val right.tree
  | _, primary e => e.tree
  | _, literal _ v _ => .literal v
  | _, reference name => .reference name.val
  | _, grouping _ inner _ => .grouping inner.tree

/-- The complaints about assignments to what is no name, from the inside out. -/
def notes : {p : Phrase} → Derivation p → List SyntaxError
  | _, plain e => e.notes
  | _, assign left equals value =>
    left.notes ++ (value.notes ++
      match target? left.tokens with
      | some _ => []
      | none => [.atToken equals.val .invalidTarget])
  | _, chain _ first more => first.notes ++ more.notes
  | _, done => []
  | _, link _ right more => right.notes ++ more.notes
  | _, signed _ right => right.notes
  | _, primary e => e.notes
  | _, literal _ _ _ => []
  | _, reference _ => []
  | _, grouping _ inner _ => inner.notes

/-- Every assignment is to a name. -/
def IsProper : {p : Phrase} → Derivation p → Prop
  | _, plain e => e.IsProper
  | _, assign left _ value =>
    (∃ name : Terminal .identifier, left.tokens = [name.val]) ∧ left.IsProper ∧ value.IsProper
  | _, chain _ first more => first.IsProper ∧ more.IsProper
  | _, done => True
  | _, link _ right more => right.IsProper ∧ more.IsProper
  | _, signed _ right => right.IsProper
  | _, primary e => e.IsProper
  | _, literal _ _ _ => True
  | _, reference _ => True
  | _, grouping _ inner _ => inner.IsProper

end Derivation

theorem target?_eq_some_iff {ts : List Token} {name : Token} :
    target? ts = some name ↔ ts = [name] ∧ name.kind = .identifier := by
  unfold target?
  split
  · rename_i t
    split
    · rename_i ht
      constructor
      · rintro ⟨⟩
        exact ⟨rfl, ht⟩
      · rintro ⟨⟨⟩, -⟩
        rfl
    · rename_i ht
      simp only [reduceCtorEq, false_iff]
      rintro ⟨⟨⟩, hname⟩
      exact ht hname
  · rename_i hts
    simp only [reduceCtorEq, false_iff, not_and]
    rintro rfl
    exact absurd rfl (hts name)

theorem target?_eq_none_iff {ts : List Token} :
    target? ts = none ↔ ¬∃ name : Terminal .identifier, ts = [name.val] := by
  rw [Option.eq_none_iff_forall_ne_some, not_exists]
  constructor
  · intro h name hts
    exact h name.val (target?_eq_some_iff.2 ⟨hts, name.property⟩)
  · intro h t ht
    obtain ⟨hts, hname⟩ := target?_eq_some_iff.1 ht
    exact h ⟨t, hname⟩ hts

theorem denotes_iff {k : Token.Kind} {v : Value} : Denotes k v ↔ k.literal? = some v := by
  constructor
  · intro h
    cases h <;> rfl
  · intro h
    unfold Token.Kind.literal? at h
    split at h <;> cases h <;> constructor

theorem Denotes.ne_terminal {t : Token} {v : Value} (h : Denotes t.kind v) {k : Token.Kind}
    (t' : Terminal k) (hk : k.literal? = none) : t ≠ t'.val := by
  rintro rfl
  rw [denotes_iff, t'.property, hk] at h
  cases h

theorem tier?_eq_some_iff {k : Token.Kind} {t : Tier} :
    k.tier? = some t ↔ ∃ s ∈ operators t, k = .symbol s := by
  constructor
  · intro h
    cases k with
    | symbol s =>
      refine ⟨s, ?_, rfl⟩
      cases s <;> cases h <;> decide
    | _ => cases h
  · rintro ⟨s, hs, rfl⟩
    cases t <;> simp only [operators, List.mem_cons, List.not_mem_nil, or_false] at hs <;>
      rcases hs with rfl | rfl | rfl | rfl <;> rfl

theorem isUnary_iff {k : Token.Kind} : k.isUnary ↔ ∃ s ∈ signs, k = .symbol s := by
  simp [Token.Kind.isUnary, signs]

namespace Phrase

/-- The kinds of token that make a phrase longer, where they follow it. -/
def Extends : Phrase → Token.Kind → Prop
  | .assignment, k => k = .symbol .equal ∨ ∃ t, k.tier? = some t
  | .tier t, k | .tail t, k => ∃ u, k.tier? = some u ∧ u.rank ≤ t.rank
  | .primary, _ => False

/-- What follows does not make the phrase longer. -/
def Ends (p : Phrase) (rest : List Token) : Prop := ∀ t ∈ rest.head?, ¬p.Extends t.kind

@[simp] theorem ends_cons {p : Phrase} {t : Token} {ts : List Token} :
    p.Ends (t :: ts) ↔ ¬p.Extends t.kind := by simp [Ends]

theorem Ends.equality {rest : List Token} (h : assignment.Ends rest) :
    (tier .equality).Ends rest := by
  intro t ht hx
  obtain ⟨u, hu, -⟩ := hx
  exact h t ht (.inr ⟨u, hu⟩)

theorem Ends.operand {t : Tier} {rest : List Token} (h : (tier t).Ends rest) :
    (tier t.operand).Ends rest := by
  intro s hs hx
  obtain ⟨u, hu, hle⟩ := hx
  refine h s hs ⟨u, hu, Nat.le_trans hle ?_⟩
  cases t <;> decide

/-- An operator ends the operands of its tier. -/
theorem ends_operator {t : Tier} (op : OneOf (operators t)) (ts : List Token) :
    (tier t.operand).Ends (op.val :: ts) := by
  rw [ends_cons]
  rintro ⟨u, hu, hle⟩
  have ht : op.val.kind.tier? = some t := tier?_eq_some_iff.2 op.property
  obtain rfl : t = u := Option.some.inj (ht.symm.trans hu)
  have hne : t ≠ .unary := by
    rintro rfl
    obtain ⟨s, hs, -⟩ := op.property
    exact absurd hs (by simp [operators])
  exact absurd hle (Nat.not_le_of_lt (Tier.rank_operand_lt hne))

theorem ends_equals (t : Tier) (equals : Terminal (.symbol .equal)) (ts : List Token) :
    (tier t).Ends (equals.val :: ts) := by
  rw [ends_cons, equals.property]
  rintro ⟨u, hu, -⟩
  cases hu

theorem ends_rightParen (closing : Terminal (.symbol .rightParen)) (ts : List Token) :
    assignment.Ends (closing.val :: ts) := by
  rw [ends_cons, closing.property]
  rintro (h | ⟨u, hu⟩)
  · cases h
  · cases hu

theorem ends_semicolon (closing : Terminal (.symbol .semicolon)) (ts : List Token) :
    assignment.Ends (closing.val :: ts) := by
  rw [ends_cons, closing.property]
  rintro (h | ⟨u, hu⟩)
  · cases h
  · cases hu

end Phrase

namespace Derivation

theorem tokens_ne_nil {p : Phrase} (d : Derivation p) (hp : ∀ t, p ≠ .tail t) :
    d.tokens ≠ [] := by
  induction d with
  | plain e ih => exact ih (by simp)
  | assign left equals value => simp [tokens]
  | chain ht first more ih => simp [tokens, ih]
  | done => exact absurd rfl (hp _)
  | link op right more => simp [tokens]
  | signed sign right => simp [tokens]
  | primary e ih => exact ih (by simp)
  | literal t v h => simp [tokens]
  | reference name => simp [tokens]
  | grouping opening inner closing => simp [tokens]

/-- The operands of a chain end where its tail begins. -/
theorem ends_tail {t : Tier} (more : Derivation (.tail t)) {rest : List Token}
    (h : (Phrase.tier t).Ends rest) : (Phrase.tier t.operand).Ends (more.tokens ++ rest) := by
  cases more with
  | done => exact h.operand
  | link op right more =>
    rw [tokens, List.cons_append]
    exact Phrase.ends_operator op _

/-- What no sign stands before does not begin with one. -/
theorem primary_ne_sign (d : Derivation .primary) (sign : OneOf signs) {ts us : List Token} :
    d.tokens ++ ts ≠ sign.val :: us := by
  intro h
  obtain ⟨s, hs, hk⟩ := sign.property
  cases d with
  | literal t v hv =>
    obtain ⟨rfl, -⟩ := List.cons.inj h
    rw [hk] at hv
    cases hv
  | reference name =>
    obtain ⟨hn, -⟩ := List.cons.inj h
    rw [← hn, name.property] at hk
    cases hk
  | grouping opening inner closing =>
    obtain ⟨hn, -⟩ := List.cons.inj h
    rw [← hn, opening.property] at hk
    cases hk
    exact absurd hs (by decide)

/-- The grammar is unambiguous, also in the midst of other tokens: two derivations of a phrase that
are as long as they can be at one place are the same. -/
theorem eq_of_tokens_append_eq {p : Phrase} (d d' : Derivation p) {rest rest' : List Token}
    (hr : p.Ends rest) (hr' : p.Ends rest') (h : d.tokens ++ rest = d'.tokens ++ rest') :
    d = d' ∧ rest = rest' := by
  induction d generalizing rest rest' with
  | plain e ih =>
    cases d' with
    | plain e' =>
      obtain ⟨rfl, hrest⟩ := ih e' hr.equality hr'.equality h
      exact ⟨rfl, hrest⟩
    | assign left' equals' value' =>
      simp only [tokens, List.append_assoc, List.cons_append] at h
      obtain ⟨-, rfl⟩ := ih left' hr.equality (Phrase.ends_equals _ equals' _) h
      exact absurd (.inl equals'.property) (Phrase.ends_cons.1 hr)
  | assign left equals value ihl ihv =>
    cases d' with
    | plain e' =>
      simp only [tokens, List.append_assoc, List.cons_append] at h
      obtain ⟨-, rfl⟩ := ihl e' (Phrase.ends_equals _ equals _) hr'.equality h
      exact absurd (.inl equals.property) (Phrase.ends_cons.1 hr')
    | assign left' equals' value' =>
      simp only [tokens, List.append_assoc, List.cons_append] at h
      obtain ⟨rfl, htail⟩ :=
        ihl left' (Phrase.ends_equals _ equals _) (Phrase.ends_equals _ equals' _) h
      obtain ⟨he, hvalue⟩ := List.cons.inj htail
      obtain ⟨rfl, hrest⟩ := ihv value' hr hr' hvalue
      rw [Subtype.ext he]
      exact ⟨rfl, hrest⟩
  | chain ht first more ihf ihm =>
    cases d' with
    | chain ht' first' more' =>
      simp only [tokens, List.append_assoc] at h
      obtain ⟨rfl, htail⟩ := ihf first' (ends_tail more hr) (ends_tail more' hr') h
      obtain ⟨rfl, hrest⟩ := ihm more' hr hr' htail
      exact ⟨rfl, hrest⟩
    | signed sign' right' => exact absurd rfl ht
    | primary e' => exact absurd rfl ht
  | @done t =>
    cases d' with
    | done => exact ⟨rfl, h⟩
    | link op' right' more' =>
      obtain rfl : rest = op'.val :: (right'.tokens ++ more'.tokens ++ rest') := by
        simpa [tokens] using h
      exact absurd ⟨t, tier?_eq_some_iff.2 op'.property, Nat.le_refl _⟩ (Phrase.ends_cons.1 hr)
  | @link t op right more ihr ihm =>
    cases d' with
    | done =>
      obtain rfl : op.val :: (right.tokens ++ more.tokens ++ rest) = rest' := by
        simpa [tokens] using h
      exact absurd ⟨t, tier?_eq_some_iff.2 op.property, Nat.le_refl _⟩ (Phrase.ends_cons.1 hr')
    | link op' right' more' =>
      simp only [tokens, List.append_assoc, List.cons_append] at h
      obtain ⟨hop, hright⟩ := List.cons.inj h
      obtain ⟨rfl, htail⟩ := ihr right' (ends_tail more hr) (ends_tail more' hr') hright
      obtain ⟨rfl, hrest⟩ := ihm more' hr hr' htail
      rw [Subtype.ext hop]
      exact ⟨rfl, hrest⟩
  | signed sign right ih =>
    cases d' with
    | chain ht' first' more' => exact absurd rfl ht'
    | signed sign' right' =>
      obtain ⟨hsign, hright⟩ := List.cons.inj h
      obtain ⟨rfl, hrest⟩ := ih right' hr hr' hright
      rw [Subtype.ext hsign]
      exact ⟨rfl, hrest⟩
    | primary e' => exact absurd h.symm (primary_ne_sign e' sign)
  | primary e ih =>
    cases d' with
    | chain ht' first' more' => exact absurd rfl ht'
    | signed sign' right' => exact absurd h (primary_ne_sign e sign')
    | primary e' =>
      obtain ⟨rfl, hrest⟩ := ih e' (by simp [Phrase.Ends, Phrase.Extends])
        (by simp [Phrase.Ends, Phrase.Extends]) h
      exact ⟨rfl, hrest⟩
  | literal t v hv =>
    cases d' with
    | literal t' v' hv' =>
      obtain ⟨rfl, hrest⟩ := List.cons.inj h
      obtain rfl : v = v' := Option.some.inj ((denotes_iff.1 hv).symm.trans (denotes_iff.1 hv'))
      exact ⟨rfl, hrest⟩
    | reference name' => exact absurd (List.cons.inj h).1 (hv.ne_terminal name' rfl)
    | grouping opening' inner' closing' =>
      exact absurd (List.cons.inj h).1 (hv.ne_terminal opening' rfl)
  | reference name =>
    cases d' with
    | literal t' v' hv' => exact absurd (List.cons.inj h).1.symm (hv'.ne_terminal name rfl)
    | reference name' =>
      obtain ⟨hname, hrest⟩ := List.cons.inj h
      rw [Subtype.ext hname]
      exact ⟨rfl, hrest⟩
    | grouping opening' inner' closing' =>
      exact absurd (List.cons.inj h).1 (Terminal.ne name opening' (by simp))
  | grouping opening inner closing ih =>
    cases d' with
    | literal t' v' hv' => exact absurd (List.cons.inj h).1.symm (hv'.ne_terminal opening rfl)
    | reference name' => exact absurd (List.cons.inj h).1 (Terminal.ne opening name' (by simp))
    | grouping opening' inner' closing' =>
      simp only [tokens, List.append_assoc, List.cons_append, List.nil_append] at h
      obtain ⟨hopening, hinner⟩ := List.cons.inj h
      obtain ⟨rfl, hclosing⟩ := ih inner' (Phrase.ends_rightParen closing _)
        (Phrase.ends_rightParen closing' _) hinner
      obtain ⟨hclosing, hrest⟩ := List.cons.inj hclosing
      rw [Subtype.ext hopening, Subtype.ext hclosing]
      exact ⟨rfl, hrest⟩

end Derivation

end Grammar

end TreeWalk

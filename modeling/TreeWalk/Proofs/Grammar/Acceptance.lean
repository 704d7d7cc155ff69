import TreeWalk.Proofs.Grammar.Derivation
import TreeWalk.Proofs.Grammar.Statement

/-! The readers of expressions accept what the grammar derives and nothing else, and build the tree
of the derivation. -/
namespace TreeWalk

namespace Grammar

open Reading

/-- What the reader of a phrase makes of its tokens, when others follow. -/
def Phrase.Reads : (p : Phrase) → Derivation p → List Token → Prop
  | .assignment, d, rest => Expr.read (d.tokens ++ rest) = ⟨d.notes, .ok d.tree, rest⟩
  | .tier t, d, rest => Expr.readTier t (d.tokens ++ rest) = ⟨d.notes, .ok d.tree, rest⟩
  | .tail t, d, rest => ∀ left,
    Expr.readChain t left (d.tokens ++ rest) = ⟨d.notes, .ok (applyAll left d.tree), rest⟩
  | .primary, d, rest => Expr.readOperand (d.tokens ++ rest) = ⟨d.notes, .ok d.tree, rest⟩

theorem readAssigned_of_ends (left : Expr) {rest : List Token} (h : Phrase.assignment.Ends rest) :
    Expr.readAssigned left rest = done left rest := by
  cases rest with
  | nil => rfl
  | cons t ts =>
    rw [Expr.readAssigned, if_neg]
    exact fun ht => Phrase.ends_cons.1 h (.inl ht)

theorem readChain_of_ends {t : Tier} (left : Expr) {rest : List Token}
    (h : (Phrase.tail t).Ends rest) :
    Expr.readChain t left rest = done left rest := by
  cases rest with
  | nil => rw [Expr.readChain_nil]
  | cons op ts =>
    rw [Expr.readChain_cons, if_neg]
    exact fun hop => Phrase.ends_cons.1 h ⟨t, hop, Nat.le_refl _⟩

namespace Derivation

/-- A phrase stands for a name exactly if it is that name and nothing else. -/
def NamesItsTarget : (p : Phrase) → Derivation p → Prop
  | .tier _, d | .primary, d => ∀ name, d.tree = .reference name ↔ target? d.tokens = some name
  | _, _ => True

theorem applyAll_ne_reference (left : Expr) (link : Token × Expr) (links : List (Token × Expr))
    (name : Token) : applyAll left (link :: links) ≠ .reference name := by
  induction links generalizing left link with
  | nil => simp [applyAll]
  | cons link' links ih => exact ih (.binary left link.1 link.2) link'

theorem target?_append {ts us : List Token} (ht : ts ≠ []) (hu : us ≠ []) :
    target? (ts ++ us) = none := by
  cases ts with
  | nil => exact absurd rfl ht
  | cons t ts =>
    cases h : ts ++ us with
    | nil => exact absurd (List.append_eq_nil_iff.1 h).2 hu
    | cons v vs => rw [List.cons_append, h]; rfl

theorem namesItsTarget {p : Phrase} (d : Derivation p) : NamesItsTarget p d := by
  induction d with
  | plain | assign | done | link => trivial
  | chain ht first more ihf ihm =>
    intro name
    cases more with
    | done => simpa [tree, tokens, applyAll] using ihf name
    | link op right more =>
      have hne := applyAll_ne_reference first.tree (op.val, right.tree) more.tree name
      have hnone : target? (first.tokens ++ (link op right more).tokens) = none :=
        target?_append (tokens_ne_nil first (by simp)) (by simp [tokens])
      rw [tokens, hnone]
      simpa [tree] using hne
  | signed sign right =>
    intro name
    have hnone : target? ([sign.val] ++ right.tokens) = none :=
      target?_append (by simp) (tokens_ne_nil right (by simp))
    rw [tokens, ← List.singleton_append, hnone]
    simp [tree]
  | primary e ih => exact ih
  | literal t v h =>
    intro name
    have hk : t.kind ≠ .identifier := by
      intro hk
      rw [hk] at h
      cases h
    simp [tree, tokens, target?, hk]
  | reference name => simp [NamesItsTarget, tree, tokens, target?, name.property]
  | grouping opening inner closing =>
    intro name
    have hnone : target? ([opening.val] ++ (inner.tokens ++ [closing.val])) = none :=
      target?_append (by simp) (by simp)
    rw [tokens, ← List.singleton_append, hnone]
    simp [tree]

theorem assignTo_tree {t : Tier} (left : Derivation (.tier t)) (equals : Token) (value : Expr)
    (rest : List Token) :
    Expr.assignTo left.tree equals value rest =
      ⟨match target? left.tokens with
        | some _ => []
        | none => [.atToken equals .invalidTarget],
        .ok (match target? left.tokens with
          | some name => .assign name value
          | none => left.tree), rest⟩ := by
  cases h : target? left.tokens with
  | some name =>
    rw [(namesItsTarget left name).2 h]
    rfl
  | none =>
    have hne : ∀ name, left.tree ≠ .reference name := by
      intro name hname
      rw [(namesItsTarget left name).1 hname] at h
      cases h
    cases htree : left.tree with
    | reference name => exact absurd htree (hne name)
    | _ => rfl

theorem readOperand_literal {t : Token} {v : Value} (h : Denotes t.kind v) (ts : List Token) :
    Expr.readOperand (t :: ts) = Reading.done (.literal v) ts := by
  rw [Expr.readOperand_cons]
  generalize t.kind = k at h
  cases h <;> rfl

theorem readOperand_reference (name : Terminal .identifier) (ts : List Token) :
    Expr.readOperand (name.val :: ts) = Reading.done (.reference name.val) ts := by
  rw [Expr.readOperand_cons, name.property]
  rfl

theorem readOperand_grouping (opening : Terminal (.symbol .leftParen)) (ts : List Token) :
    Expr.readOperand (opening.val :: ts) = (Expr.read ts).bind Expr.closeGrouping := by
  rw [Expr.readOperand_cons, opening.property]
  rfl

theorem reads {p : Phrase} (d : Derivation p) {rest : List Token} (h : p.Ends rest) :
    p.Reads d rest := by
  induction d generalizing rest with
  | plain e ih =>
    have hassign := readAssigned_of_ends e.tree h
    have hread := bind_eq (ih h.equality) hassign
    rw [← Expr.read_eq, List.append_nil] at hread
    exact hread
  | assign left equals value ihl ihv =>
    have hvalue := bind_eq (ihv h) (assignTo_tree left equals.val value.tree rest)
    have hassign : Expr.readAssigned left.tree (equals.val :: (value.tokens ++ rest)) = _ :=
      (if_pos equals.property).trans hvalue
    have hread := bind_eq (ihl (Phrase.ends_equals _ equals _)) hassign
    rw [← Expr.read_eq] at hread
    rw [Phrase.Reads, tokens, List.append_assoc, List.cons_append]
    exact hread
  | chain ht first more ihf ihm =>
    have hread := bind_eq (ihf (ends_tail more h)) (ihm h first.tree)
    rw [← Expr.readTier_eq ht, ← List.append_assoc] at hread
    exact hread
  | done =>
    intro left
    exact readChain_of_ends left h
  | @link t op right more ihr ihm =>
    intro left
    have hread := bind_eq (f := fun right => Expr.readChain t (.binary left op.val right))
      (ihr (ends_tail more h)) (ihm h (.binary left op.val right.tree))
    rw [tokens, List.cons_append, Expr.readChain_cons, if_pos (tier?_eq_some_iff.2 op.property),
      List.append_assoc]
    exact hread
  | signed sign right ih =>
    have hread := bind_eq (f := fun e => Reading.done (Expr.unary sign.val e)) (ih h) rfl
    rw [Expr.readTier_unary, List.append_nil] at hread
    rw [Phrase.Reads, Expr.readTier_unary, tokens, List.cons_append, Expr.readOperand_cons,
      if_pos (isUnary_iff.2 sign.property)]
    exact hread
  | primary e ih =>
    rw [Phrase.Reads, Expr.readTier_unary]
    exact ih (by simp [Phrase.Ends, Phrase.Extends])
  | literal t v hv => exact readOperand_literal hv rest
  | reference name => exact readOperand_reference name rest
  | grouping opening inner closing ih =>
    have hclose : Expr.closeGrouping inner.tree (closing.val :: rest) =
        Reading.done (.grouping inner.tree) rest := by
      rw [Expr.closeGrouping, expect, if_pos closing.property, done_bind]
    have hread := bind_eq (ih (Phrase.ends_rightParen closing rest)) hclose
    rw [← readOperand_grouping opening, List.append_nil] at hread
    rw [Phrase.Reads, tokens, List.cons_append, List.append_assoc]
    exact hread

end Derivation

/-- Where a reading succeeds, it follows a derivation of the tokens that it took. -/
def Phrase.Derives (p : Phrase) (build : p.Tree → Expr) (ts : List Token) (r : Reading Expr) :
    Prop :=
  ∀ e, r.result = .ok e → ∃ d : Derivation p,
    ts = d.tokens ++ r.rest ∧ r.notes = d.notes ∧ e = build d.tree

theorem Phrase.derives_done {p : Phrase} (build : p.Tree → Expr) (d : Derivation p)
    (hd : d.notes = []) (ts : List Token) :
    p.Derives build (d.tokens ++ ts) (Reading.done (build d.tree) ts) := by
  rintro e ⟨⟩
  exact ⟨d, rfl, hd.symm, rfl⟩

theorem derives_signed {t : Token} (ht : t.kind.isUnary) {ts : List Token}
    (h : (Phrase.tier .unary).Derives id ts (Expr.readOperand ts)) :
    (Phrase.tier .unary).Derives id (t :: ts)
      ((Expr.readOperand ts).bind fun right => Reading.done (.unary t right)) := by
  intro e he
  obtain ⟨right, hright, hdone⟩ := exists_of_bind_ok he
  obtain ⟨d, hd, hnotes, rfl⟩ := h right hright
  cases hdone
  rw [bind_of_ok hright, hnotes]
  refine ⟨.signed ⟨t, isUnary_iff.1 ht⟩ d, ?_, List.append_nil _, rfl⟩
  exact congrArg (t :: ·) hd

theorem exists_of_closeGrouping_ok {inner e : Expr} {ts : List Token}
    (h : (Expr.closeGrouping inner ts).result = .ok e) :
    ∃ closing : Terminal (.symbol .rightParen),
      ts = closing.val :: (Expr.closeGrouping inner ts).rest ∧
      (Expr.closeGrouping inner ts).notes = [] ∧ e = .grouping inner := by
  cases ts with
  | nil => cases h
  | cons t ts =>
    rw [Expr.closeGrouping, expect] at h ⊢
    split at h
    · rename_i ht
      rw [if_pos ht]
      cases h
      exact ⟨⟨t, ht⟩, rfl, rfl, rfl⟩
    · cases h

theorem derives_grouping {t : Token} (ht : t.kind = .symbol .leftParen) {ts : List Token}
    (h : Phrase.assignment.Derives id ts (Expr.read ts)) :
    (Phrase.tier .unary).Derives id (t :: ts) ((Expr.read ts).bind Expr.closeGrouping) := by
  intro e he
  obtain ⟨inner, hinner, hclose⟩ := exists_of_bind_ok he
  obtain ⟨d, hd, hnotes, rfl⟩ := h inner hinner
  obtain ⟨closing, hrest, hclosed, rfl⟩ := exists_of_closeGrouping_ok hclose
  rw [bind_of_ok hinner, hclosed, hnotes]
  refine ⟨.primary (.grouping ⟨t, ht⟩ d closing), ?_, List.append_nil _, rfl⟩
  simp only [Derivation.tokens, List.cons_append, List.append_assoc, List.nil_append]
  exact congrArg (t :: ·) (hd.trans (congrArg (d.tokens ++ ·) hrest))

theorem derives_readOperand {ts : List Token}
    (h : ∀ us : List Token, us.length < ts.length →
      Phrase.assignment.Derives id us (Expr.read us) ∧
      (Phrase.tier .unary).Derives id us (Expr.readOperand us)) :
    (Phrase.tier .unary).Derives id ts (Expr.readOperand ts) := by
  cases ts with
  | nil =>
    rw [Expr.readOperand_nil]
    intro e he
    cases he
  | cons t ts =>
    obtain ⟨hread, hoperand⟩ := h ts (Nat.lt_succ_self _)
    rw [Expr.readOperand_cons]
    split
    · rename_i ht
      exact derives_signed ht hoperand
    split
    · rename_i ht
      exact derives_grouping ht hread
    split
    · rename_i ht
      exact Phrase.derives_done (p := .tier .unary) id (.primary (.reference ⟨t, ht⟩)) rfl ts
    split
    · rename_i v hv
      exact Phrase.derives_done (p := .tier .unary) id
        (.primary (.literal t v (denotes_iff.2 hv))) rfl ts
    · intro e he
      cases he

theorem derives_readChain {t : Tier} (left : Expr) {ts : List Token}
    (h : ∀ us : List Token, us.length < ts.length →
      (∀ t, (Phrase.tier t).Derives id us (Expr.readTier t us)) ∧
      ∀ left, (Phrase.tail t).Derives (applyAll left) us (Expr.readChain t left us)) :
    (Phrase.tail t).Derives (applyAll left) ts (Expr.readChain t left ts) := by
  cases ts with
  | nil =>
    rw [Expr.readChain_nil]
    exact Phrase.derives_done (p := .tail t) (applyAll left) .done rfl []
  | cons op ts =>
    rw [Expr.readChain_cons]
    split
    · rename_i hop
      intro e he
      obtain ⟨right, hright, hchain⟩ := exists_of_bind_ok he
      have hlt := (Expr.advances_readTier t.operand ts).2 right hright
      obtain ⟨d, hd, hnotes, rfl⟩ := (h ts (Nat.lt_succ_self _)).1 t.operand right hright
      obtain ⟨more, hmore, hmoreNotes, rfl⟩ := (h _ (Nat.lt_succ_of_lt hlt)).2 _ e hchain
      rw [bind_of_ok hright, hnotes, hmoreNotes]
      refine ⟨.link ⟨op, tier?_eq_some_iff.1 hop⟩ d more, ?_, rfl, rfl⟩
      simp only [Derivation.tokens, List.cons_append, List.append_assoc]
      exact congrArg (op :: ·) (hd.trans (congrArg (d.tokens ++ ·) hmore))
    · exact Phrase.derives_done (p := .tail t) (applyAll left) .done rfl (op :: ts)

theorem derives_readTier {t : Tier} (ht : t ≠ .unary) {ts : List Token}
    (hfirst : (Phrase.tier t.operand).Derives id ts (Expr.readTier t.operand ts))
    (hmore : ∀ left us, us.length < ts.length →
      (Phrase.tail t).Derives (applyAll left) us (Expr.readChain t left us)) :
    (Phrase.tier t).Derives id ts (Expr.readTier t ts) := by
  intro e he
  rw [Expr.readTier_eq ht] at he ⊢
  obtain ⟨first, hfirstOk, hchain⟩ := exists_of_bind_ok he
  have hlt := (Expr.advances_readTier t.operand ts).2 first hfirstOk
  obtain ⟨d, hd, hnotes, rfl⟩ := hfirst first hfirstOk
  obtain ⟨more, hmore, hmoreNotes, rfl⟩ := hmore _ _ hlt e hchain
  rw [bind_of_ok hfirstOk, hnotes, hmoreNotes]
  refine ⟨.chain ht d more, ?_, rfl, rfl⟩
  simp only [Derivation.tokens, List.append_assoc]
  exact hd.trans (congrArg (d.tokens ++ ·) hmore)

/-- What stands behind a left side completes it to an assignment, or leaves it as it is. -/
theorem derives_readAssigned (left : Derivation (.tier .equality)) {ts : List Token}
    (h : ∀ us : List Token, us.length < ts.length →
      Phrase.assignment.Derives id us (Expr.read us)) {e : Expr}
    (he : (Expr.readAssigned left.tree ts).result = .ok e) :
    ∃ d : Derivation .assignment,
      left.tokens ++ ts = d.tokens ++ (Expr.readAssigned left.tree ts).rest ∧
      left.notes ++ (Expr.readAssigned left.tree ts).notes = d.notes ∧ e = d.tree := by
  cases ts with
  | nil =>
    cases he
    exact ⟨.plain left, rfl, List.append_nil _, rfl⟩
  | cons equals ts =>
    rw [Expr.readAssigned] at he ⊢
    split at he
    · rename_i hequals
      rw [if_pos hequals]
      obtain ⟨value, hvalue, hassign⟩ := exists_of_bind_ok he
      obtain ⟨d, hd, hnotes, rfl⟩ := h ts (Nat.lt_succ_self _) value hvalue
      rw [id_eq, Derivation.assignTo_tree] at hassign
      rw [bind_of_ok hvalue, id_eq, Derivation.assignTo_tree, hnotes]
      cases hassign
      refine ⟨.assign left ⟨equals, hequals⟩ d, ?_, rfl, rfl⟩
      simp only [Derivation.tokens, List.append_assoc, List.cons_append]
      exact congrArg (left.tokens ++ equals :: ·) hd
    · rename_i hequals
      rw [if_neg hequals]
      cases he
      exact ⟨.plain left, rfl, List.append_nil _, rfl⟩

theorem derives_read {ts : List Token}
    (hleft : (Phrase.tier .equality).Derives id ts (Expr.readTier .equality ts))
    (hvalue : ∀ us : List Token, us.length < ts.length →
      Phrase.assignment.Derives id us (Expr.read us)) :
    Phrase.assignment.Derives id ts (Expr.read ts) := by
  intro e he
  rw [Expr.read_eq] at he ⊢
  obtain ⟨left, hleftOk, hassign⟩ := exists_of_bind_ok he
  have hlt := (Expr.advances_readTier .equality ts).2 left hleftOk
  obtain ⟨d, hd, hnotes, rfl⟩ := hleft left hleftOk
  obtain ⟨d', hd', hnotes', rfl⟩ :=
    derives_readAssigned d (fun us hus => hvalue us (Nat.lt_trans hus hlt)) hassign
  rw [bind_of_ok hleftOk, hnotes]
  exact ⟨d', hd.trans hd', hnotes', rfl⟩

/-- Every reader of expressions follows a derivation where it succeeds. -/
theorem derives_readers (ts : List Token) :
    Phrase.assignment.Derives id ts (Expr.read ts) ∧
    (∀ t, (Phrase.tier t).Derives id ts (Expr.readTier t ts)) ∧
    (∀ t left, (Phrase.tail t).Derives (applyAll left) ts (Expr.readChain t left ts)) ∧
    (Phrase.tier .unary).Derives id ts (Expr.readOperand ts) := by
  apply Expr.readers_induction (A := fun ts => Phrase.assignment.Derives id ts (Expr.read ts))
    (O := fun ts => (Phrase.tier .unary).Derives id ts (Expr.readOperand ts))
    (L := fun t ts => (Phrase.tier t).Derives id ts (Expr.readTier t ts))
    (C := fun t left ts => (Phrase.tail t).Derives (applyAll left) ts (Expr.readChain t left ts))
  case operand => exact fun ts h => derives_readOperand h
  case chain =>
    intro t left ts h
    exact derives_readChain left fun us hus => h us hus
  case unary =>
    intro ts h
    rwa [Expr.readTier_unary]
  case tier => exact fun t ts ht hfirst hmore => derives_readTier ht hfirst hmore
  case assignment => exact fun ts hleft hvalue => derives_read hleft hvalue

end Grammar

end TreeWalk

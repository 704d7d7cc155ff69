import TreeWalk.Proofs.Grammar.Program

/-! Statements that break off. Where reading fails, what it took is a statement up to a token that
it lacks: single tokens and complete phrases, one after another. The notes are those of the complete
phrases. -/
namespace TreeWalk

namespace Grammar

/-- A token of a kind, where any of that kind will do. -/
def anyOf (kind : Token.Kind) : Terminal kind := ⟨⟨kind, "", 0⟩, rfl⟩

/-- A token alone, or a phrase that is complete. -/
inductive Piece
  | token (t : Token)
  | phrase {p : Phrase} (d : Derivation p)

namespace Piece

def tokens : Piece → List Token
  | token t => [t]
  | phrase d => d.tokens

def notes : Piece → List SyntaxError
  | token _ => []
  | phrase d => d.notes

/-- The tokens of pieces in a row. -/
def spell (pieces : List Piece) : List Token := pieces.flatMap tokens

/-- The notes of pieces in a row. -/
def complaints (pieces : List Piece) : List SyntaxError := pieces.flatMap notes

@[simp] theorem spell_nil : spell [] = [] := rfl

@[simp] theorem spell_cons (piece : Piece) (pieces : List Piece) :
    spell (piece :: pieces) = piece.tokens ++ spell pieces := rfl

@[simp] theorem spell_append (ps qs : List Piece) : spell (ps ++ qs) = spell ps ++ spell qs :=
  List.flatMap_append

@[simp] theorem complaints_nil : complaints [] = [] := rfl

@[simp] theorem complaints_cons (piece : Piece) (pieces : List Piece) :
    complaints (piece :: pieces) = piece.notes ++ complaints pieces := rfl

@[simp] theorem complaints_append (ps qs : List Piece) :
    complaints (ps ++ qs) = complaints ps ++ complaints qs := List.flatMap_append

@[simp] theorem tokens_token (t : Token) : (token t).tokens = [t] := rfl

@[simp] theorem notes_token (t : Token) : (token t).notes = [] := rfl

@[simp] theorem tokens_phrase {p : Phrase} (d : Derivation p) : (phrase d).tokens = d.tokens := rfl

@[simp] theorem notes_phrase {p : Phrase} (d : Derivation p) : (phrase d).notes = d.notes := rfl

end Piece

open Piece Reading

/-- A phrase up to a token that it lacks: an operand, or the bracket that closes a grouping. All
that stands before the place where it goes on is complete. -/
inductive Cut : Phrase → Type
  | plain (e : Cut (.tier .equality)) : Cut .assignment
  | assign (left : Derivation (.tier .equality)) (equals : Terminal (.symbol .equal))
      (value : Cut .assignment) : Cut .assignment
  | first {t : Tier} (ht : t ≠ .unary) (e : Cut (.tier t.operand)) : Cut (.tier t)
  | chain {t : Tier} (ht : t ≠ .unary) (first : Derivation (.tier t.operand))
      (more : Cut (.tail t)) : Cut (.tier t)
  | right {t : Tier} (op : OneOf (operators t)) (e : Cut (.tier t.operand)) : Cut (.tail t)
  | link {t : Tier} (op : OneOf (operators t)) (right : Derivation (.tier t.operand))
      (more : Cut (.tail t)) : Cut (.tail t)
  | operand : Cut (.tier .unary)
  | signed (sign : OneOf signs) (right : Cut (.tier .unary)) : Cut (.tier .unary)
  | inner (opening : Terminal (.symbol .leftParen)) (e : Cut .assignment) : Cut (.tier .unary)
  | closing (opening : Terminal (.symbol .leftParen)) (e : Derivation .assignment) :
      Cut (.tier .unary)

/-- What a cut phrase has, in order. -/
def Cut.pieces : {p : Phrase} → Cut p → List Piece
  | _, plain e => e.pieces
  | _, assign left equals value => phrase left :: token equals.val :: value.pieces
  | _, first _ e => e.pieces
  | _, chain _ e more => phrase e :: more.pieces
  | _, right op e => token op.val :: e.pieces
  | _, link op e more => token op.val :: phrase e :: more.pieces
  | _, operand => []
  | _, signed sign e => token sign.val :: e.pieces
  | _, inner opening e => token opening.val :: e.pieces
  | _, closing opening e => [token opening.val, phrase e]

/-- The pieces of some cut phrase. -/
def Phrase.IsCut (p : Phrase) (pieces : List Piece) : Prop := ∃ c : Cut p, c.pieces = pieces

namespace Declaration

def initialPieces : Option (Terminal (.symbol .equal) × Derivation .assignment) → List Piece
  | none => []
  | some (equals, e) => [token equals.val, phrase e]

/-- A declaration without its semicolon. -/
def body : Declaration → List Piece
  | declare opening name colons type initial _ =>
    [token opening.val, token name.val, token colons.val, token type.val] ++ initialPieces initial
  | print opening e _ => [token opening.val, phrase e]
  | expression e _ => [phrase e]

def closing : Declaration → Terminal (.symbol .semicolon)
  | declare _ _ _ _ _ closing | print _ _ closing | expression _ closing => closing

theorem spell_initialPieces
    (initial : Option (Terminal (.symbol .equal) × Derivation .assignment)) :
    spell (initialPieces initial) = initialTokens initial := by
  cases initial <;> simp [initialPieces, initialTokens]

theorem complaints_initialPieces
    (initial : Option (Terminal (.symbol .equal) × Derivation .assignment)) :
    complaints (initialPieces initial) = initialNotes initial := by
  cases initial <;> simp [initialPieces, initialNotes]

theorem tokens_eq (d : Declaration) : d.tokens = spell d.body ++ [d.closing.val] := by
  cases d <;> simp [tokens, body, closing, spell_initialPieces]

theorem notes_eq (d : Declaration) : d.notes = complaints d.body := by
  cases d <;> simp [notes, body, complaints_initialPieces]

end Declaration

/-- A statement up to a token that it lacks. -/
inductive Unfinished
  | name (opening : Terminal (.keyword .varKw))
  | colons (opening : Terminal (.keyword .varKw)) (name : Terminal .identifier)
  | type (opening : Terminal (.keyword .varKw)) (name : Terminal .identifier)
      (colons : Terminal (.symbol .doubleColon))
  | initial (opening : Terminal (.keyword .varKw)) (name : Terminal .identifier)
      (colons : Terminal (.symbol .doubleColon)) (type : Terminal .identifier)
      (equals : Terminal (.symbol .equal)) (e : Cut .assignment)
  | print (opening : Terminal (.keyword .printKw)) (e : Cut .assignment)
  | expression (e : Cut .assignment)
  | semicolon (d : Declaration)

namespace Unfinished

def pieces : Unfinished → List Piece
  | name opening => [token opening.val]
  | colons opening x => [token opening.val, token x.val]
  | type opening x colon => [token opening.val, token x.val, token colon.val]
  | initial opening x colon annotation equals e =>
    token opening.val :: token x.val :: token colon.val :: token annotation.val ::
      token equals.val :: e.pieces
  | print opening e => token opening.val :: e.pieces
  | expression e => e.pieces
  | semicolon d => d.body

/-- The pieces of some statement that breaks off. -/
def Has (pieces : List Piece) : Prop := ∃ u : Unfinished, u.pieces = pieces

end Unfinished

end Grammar

open Grammar Grammar.Piece

namespace Reading

variable {α β : Type} {C : List Piece → Prop} {front : List Piece} {us : List Token}
  {r : Reading α}

/-- Where the reading fails, the pieces in front and those that it took make up something that
breaks off, and its notes are those of the pieces that it took. -/
def Breaks (C : List Piece → Prop) (front : List Piece) (us : List Token) (r : Reading α) : Prop :=
  ∀ e, r.result = .error e →
    ∃ taken, us = spell taken ++ r.rest ∧ r.notes = complaints taken ∧ C (front ++ taken)

theorem breaks_done (a : α) (rest : List Token) : Breaks C front us (done a rest) := by
  intro e he
  cases he

theorem breaks_fail (h : C front) (cause : SyntaxError.Cause) :
    Breaks C front us (fail cause us : Reading α) := by
  intro e he
  exact ⟨[], by simp, by simp, by simpa using h⟩

theorem Breaks.cons {t : Token} (h : Breaks C (front ++ [token t]) us r) :
    Breaks C front (t :: us) r := by
  intro e he
  obtain ⟨taken, htaken, hnotes, hC⟩ := h e he
  exact ⟨token t :: taken, by simp [htaken], by simp [hnotes], by simpa using hC⟩

theorem Breaks.lift {D : List Piece → Prop} (front : List Piece) (h : Breaks D [] us r)
    (hD : ∀ taken, D taken → C (front ++ taken)) : Breaks C front us r := by
  intro e he
  obtain ⟨taken, htaken, hnotes, htakenD⟩ := h e he
  exact ⟨taken, htaken, hnotes, hD taken htakenD⟩

/-- Either the first part of a reading fails, or the second does after what the first took. -/
theorem Breaks.bind {f : α → List Token → Reading β} (hr : Breaks C front us r)
    (hf : ∀ a, r.result = .ok a → ∃ taken, us = spell taken ++ r.rest ∧
      r.notes = complaints taken ∧ Breaks C (front ++ taken) r.rest (f a r.rest)) :
    Breaks C front us (r.bind f) := by
  cases hres : r.result with
  | error e' =>
    rw [bind_error hres]
    intro e he
    exact hr e' hres
  | ok a =>
    obtain ⟨taken, htaken, hnotes, hbreaks⟩ := hf a hres
    rw [bind_of_ok hres]
    intro e he
    obtain ⟨taken', htaken', hnotes', hC⟩ := hbreaks e he
    refine ⟨taken ++ taken', ?_, ?_, by rwa [List.append_assoc] at hC⟩
    · rw [spell_append, List.append_assoc, ← htaken', ← htaken]
    · simp only [hnotes, hnotes', complaints_append]

theorem Breaks.bind_done (hr : Breaks C front us r) (g : α → β) :
    Breaks C front us (r.bind fun a => done (g a)) := by
  cases hres : r.result with
  | error e' =>
    rw [bind_error hres]
    intro e he
    exact hr e' hres
  | ok a =>
    rw [bind_of_ok hres]
    intro e he
    cases he

theorem breaks_expect_bind {kind : Token.Kind} {cause : SyntaxError.Cause}
    {f : Token → List Token → Reading β} (hC : C front)
    (hf : ∀ (t : Terminal kind) (vs : List Token),
      Breaks C (front ++ [token t.val]) vs (f t.val vs)) :
    Breaks C front us ((expect kind cause us).bind f) := by
  cases us with
  | nil => exact breaks_fail hC cause
  | cons t us =>
    rw [expect]
    split
    · rename_i ht
      exact (hf ⟨t, ht⟩ us).cons
    · exact breaks_fail hC cause

end Reading

namespace Grammar

open Reading

/-- A phrase that has been read, as the piece that it is. -/
theorem exists_piece {p : Phrase} {build : p.Tree → Expr} {ts : List Token} {r : Reading Expr}
    {e : Expr} (h : p.Derives build ts r) (he : r.result = .ok e) :
    ∃ d : Derivation p, ts = spell [phrase d] ++ r.rest ∧ r.notes = complaints [phrase d] := by
  obtain ⟨d, hd, hnotes, -⟩ := h e he
  exact ⟨d, by simpa using hd, by simpa using hnotes⟩

theorem breaks_readOperand {ts : List Token}
    (h : ∀ us : List Token, us.length < ts.length →
      Breaks Phrase.assignment.IsCut [] us (Expr.read us) ∧
      Breaks (Phrase.tier .unary).IsCut [] us (Expr.readOperand us)) :
    Breaks (Phrase.tier .unary).IsCut [] ts (Expr.readOperand ts) := by
  have hnil : (Phrase.tier .unary).IsCut [] := ⟨.operand, rfl⟩
  cases ts with
  | nil =>
    rw [Expr.readOperand_nil]
    exact breaks_fail hnil _
  | cons t ts =>
    obtain ⟨hread, hoperand⟩ := h ts (Nat.lt_succ_self _)
    rw [Expr.readOperand_cons]
    split
    · rename_i ht
      have hsigned : Breaks (Phrase.tier .unary).IsCut [token t] ts (Expr.readOperand ts) :=
        hoperand.lift _ (by rintro _ ⟨c, rfl⟩; exact ⟨.signed ⟨t, isUnary_iff.1 ht⟩ c, rfl⟩)
      exact (hsigned.bind_done (Expr.unary t)).cons
    split
    · rename_i ht
      have hinner : Breaks (Phrase.tier .unary).IsCut [token t] ts (Expr.read ts) :=
        hread.lift _ (by rintro _ ⟨c, rfl⟩; exact ⟨.inner ⟨t, ht⟩ c, rfl⟩)
      refine (hinner.bind fun inner hres => ?_).cons
      obtain ⟨d, hd, hnotes⟩ := exists_piece (derives_readers ts).1 hres
      refine ⟨[phrase d], hd, hnotes, ?_⟩
      exact breaks_expect_bind ⟨.closing ⟨t, ht⟩ d, rfl⟩ fun _ _ => breaks_done _ _
    split
    · exact breaks_done _ _
    split
    · exact breaks_done _ _
    · exact breaks_fail hnil _

theorem breaks_readChain {t : Tier} (left : Expr) {ts : List Token}
    (h : ∀ us : List Token, us.length < ts.length →
      (∀ t, Breaks (Phrase.tier t).IsCut [] us (Expr.readTier t us)) ∧
      ∀ left, Breaks (Phrase.tail t).IsCut [] us (Expr.readChain t left us)) :
    Breaks (Phrase.tail t).IsCut [] ts (Expr.readChain t left ts) := by
  cases ts with
  | nil =>
    rw [Expr.readChain_nil]
    exact breaks_done _ _
  | cons op ts =>
    rw [Expr.readChain_cons]
    split
    · rename_i hop
      let operator : OneOf (operators t) := ⟨op, tier?_eq_some_iff.1 hop⟩
      have hright : Breaks (Phrase.tail t).IsCut [token op] ts (Expr.readTier t.operand ts) :=
        ((h ts (Nat.lt_succ_self _)).1 t.operand).lift _
          (by rintro _ ⟨c, rfl⟩; exact ⟨.right operator c, rfl⟩)
      refine (hright.bind fun right hres => ?_).cons
      have hlt := (Expr.advances_readTier t.operand ts).2 right hres
      obtain ⟨d, hd, hnotes⟩ := exists_piece ((derives_readers ts).2.1 t.operand) hres
      refine ⟨[phrase d], hd, hnotes, ?_⟩
      exact ((h _ (Nat.lt_succ_of_lt hlt)).2 _).lift _
        (by rintro _ ⟨c, rfl⟩; exact ⟨.link operator d c, rfl⟩)
    · exact breaks_done _ _

theorem breaks_readTier {t : Tier} (ht : t ≠ .unary) {ts : List Token}
    (hfirst : Breaks (Phrase.tier t.operand).IsCut [] ts (Expr.readTier t.operand ts))
    (hmore : ∀ left us, us.length < ts.length →
      Breaks (Phrase.tail t).IsCut [] us (Expr.readChain t left us)) :
    Breaks (Phrase.tier t).IsCut [] ts (Expr.readTier t ts) := by
  have hcut : Breaks (Phrase.tier t).IsCut [] ts (Expr.readTier t.operand ts) :=
    hfirst.lift _ (by rintro _ ⟨c, rfl⟩; exact ⟨.first ht c, rfl⟩)
  rw [Expr.readTier_eq ht]
  refine hcut.bind fun left hres => ?_
  have hlt := (Expr.advances_readTier t.operand ts).2 left hres
  obtain ⟨d, hd, hnotes⟩ := exists_piece ((derives_readers ts).2.1 t.operand) hres
  exact ⟨[phrase d], hd, hnotes,
    (hmore left _ hlt).lift _ (by rintro _ ⟨c, rfl⟩; exact ⟨.chain ht d c, rfl⟩)⟩

theorem breaks_readAssigned (left : Derivation (.tier .equality)) (e : Expr) {ts : List Token}
    (h : ∀ us : List Token, us.length < ts.length →
      Breaks Phrase.assignment.IsCut [] us (Expr.read us)) :
    Breaks Phrase.assignment.IsCut [phrase left] ts (Expr.readAssigned e ts) := by
  cases ts with
  | nil => exact breaks_done _ _
  | cons equals ts =>
    rw [Expr.readAssigned]
    split
    · rename_i hequals
      have hvalue : Breaks Phrase.assignment.IsCut [phrase left, token equals] ts (Expr.read ts) :=
        (h ts (Nat.lt_succ_self _)).lift _
          (by rintro _ ⟨c, rfl⟩; exact ⟨.assign left ⟨equals, hequals⟩ c, rfl⟩)
      refine (hvalue.bind fun value hres => ?_).cons
      obtain ⟨d, hd, hnotes⟩ := exists_piece (derives_readers ts).1 hres
      refine ⟨[phrase d], hd, hnotes, ?_⟩
      -- an assignment whose sides have been read does not fail any more
      cases e <;> (intro e' he'; cases he')
    · exact breaks_done _ _

theorem breaks_read {ts : List Token}
    (hleft : Breaks (Phrase.tier .equality).IsCut [] ts (Expr.readTier .equality ts))
    (hvalue : ∀ us : List Token, us.length < ts.length →
      Breaks Phrase.assignment.IsCut [] us (Expr.read us)) :
    Breaks Phrase.assignment.IsCut [] ts (Expr.read ts) := by
  have hcut : Breaks Phrase.assignment.IsCut [] ts (Expr.readTier .equality ts) :=
    hleft.lift _ (by rintro _ ⟨c, rfl⟩; exact ⟨.plain c, rfl⟩)
  rw [Expr.read_eq]
  refine hcut.bind fun left hres => ?_
  have hlt := (Expr.advances_readTier .equality ts).2 left hres
  obtain ⟨d, hd, hnotes⟩ := exists_piece ((derives_readers ts).2.1 .equality) hres
  exact ⟨[phrase d], hd, hnotes,
    breaks_readAssigned d left fun us hus => hvalue us (Nat.lt_trans hus hlt)⟩

/-- Every reader of expressions breaks off where it fails. -/
theorem breaks_readers (ts : List Token) :
    Breaks Phrase.assignment.IsCut [] ts (Expr.read ts) ∧
    (∀ t, Breaks (Phrase.tier t).IsCut [] ts (Expr.readTier t ts)) ∧
    (∀ t left, Breaks (Phrase.tail t).IsCut [] ts (Expr.readChain t left ts)) ∧
    Breaks (Phrase.tier .unary).IsCut [] ts (Expr.readOperand ts) := by
  apply Expr.readers_induction
    (A := fun ts => Breaks Phrase.assignment.IsCut [] ts (Expr.read ts))
    (O := fun ts => Breaks (Phrase.tier .unary).IsCut [] ts (Expr.readOperand ts))
    (L := fun t ts => Breaks (Phrase.tier t).IsCut [] ts (Expr.readTier t ts))
    (C := fun t left ts => Breaks (Phrase.tail t).IsCut [] ts (Expr.readChain t left ts))
  case operand => exact fun ts h => breaks_readOperand h
  case chain =>
    intro t left ts h
    exact breaks_readChain left h
  case unary =>
    intro ts h
    rwa [Expr.readTier_unary]
  case tier => exact fun t ts ht hfirst hmore => breaks_readTier ht hfirst hmore
  case assignment => exact fun ts hleft hvalue => breaks_read hleft hvalue

/-- What the reader of a phrase makes of a cut one, when nothing follows. -/
def Phrase.RunsOut : (p : Phrase) → Cut p → Prop
  | .assignment, c =>
    Expr.read (spell c.pieces) = ⟨complaints c.pieces, .error .endOfInput, []⟩
  | .tier t, c =>
    Expr.readTier t (spell c.pieces) = ⟨complaints c.pieces, .error .endOfInput, []⟩
  | .tail t, c => ∀ left,
    Expr.readChain t left (spell c.pieces) = ⟨complaints c.pieces, .error .endOfInput, []⟩
  | .primary, _ => True

/-- Tokens that a phrase may begin with. -/
def Phrase.Begins (p : Phrase) (front : List Token) : Prop :=
  ∃ (d : Derivation p) (more : List Token), d.tokens = front ++ more

/-- Tokens that a declaration may begin with. -/
def Declaration.Begins (front : List Token) : Prop :=
  ∃ (d : Declaration) (more : List Token), d.tokens = front ++ more

/-- A cut phrase can be completed. -/
theorem Cut.begins {p : Phrase} (c : Cut p) : p.Begins (spell c.pieces) := by
  induction c with
  | plain e ih =>
    obtain ⟨d, more, hd⟩ := ih
    exact ⟨.plain d, more, hd⟩
  | assign left equals value ih =>
    obtain ⟨d, more, hd⟩ := ih
    exact ⟨.assign left equals d, more, by simp [Derivation.tokens, pieces, hd]⟩
  | first ht e ih =>
    obtain ⟨d, more, hd⟩ := ih
    exact ⟨.chain ht d .done, more, by simp [Derivation.tokens, pieces, hd]⟩
  | chain ht first more ih =>
    obtain ⟨d, rest, hd⟩ := ih
    exact ⟨.chain ht first d, rest, by simp [Derivation.tokens, pieces, hd]⟩
  | right op e ih =>
    obtain ⟨d, more, hd⟩ := ih
    exact ⟨.link op d .done, more, by simp [Derivation.tokens, pieces, hd]⟩
  | link op right more ih =>
    obtain ⟨d, rest, hd⟩ := ih
    exact ⟨.link op right d, rest, by simp [Derivation.tokens, pieces, hd]⟩
  | operand => exact ⟨.primary (.literal (anyOf (.keyword .noneKw)).val .absent .isNone), _, rfl⟩
  | signed sign right ih =>
    obtain ⟨d, more, hd⟩ := ih
    exact ⟨.signed sign d, more, by simp [Derivation.tokens, pieces, hd]⟩
  | inner opening e ih =>
    obtain ⟨d, more, hd⟩ := ih
    refine ⟨.primary (.grouping opening d (anyOf _)),
      more ++ [(anyOf (.symbol .rightParen)).val], ?_⟩
    simp [Derivation.tokens, pieces, hd]
  | closing opening e =>
    refine ⟨.primary (.grouping opening e (anyOf _)), [(anyOf (.symbol .rightParen)).val], ?_⟩
    simp [Derivation.tokens, pieces]

theorem ends_nil (p : Phrase) : p.Ends [] := by simp [Phrase.Ends]

/-- An operand ends where the operator behind it does not get what it needs. -/
theorem Cut.ends_tail {t : Tier} (more : Cut (.tail t)) :
    (Phrase.tier t.operand).Ends (spell more.pieces) := by
  cases more with
  | right op e => exact Phrase.ends_operator op _
  | link op right more => exact Phrase.ends_operator op _

/-- A cut phrase is read up to its end, and there a token is missing. -/
theorem Cut.runsOut {p : Phrase} (c : Cut p) : p.RunsOut c := by
  induction c with
  | plain e ih =>
    rw [Phrase.RunsOut, Expr.read_eq, pieces, ih]
    rfl
  | assign left equals value ih =>
    have hassign : Expr.readAssigned left.tree (equals.val :: spell value.pieces) =
        ⟨complaints value.pieces, .error .endOfInput, []⟩ := by
      rw [Expr.readAssigned, if_pos equals.property, ih]
      rfl
    have hread := bind_eq (left.reads (Phrase.ends_equals _ equals _)) hassign
    rw [← Expr.read_eq] at hread
    exact hread
  | first ht e ih =>
    rw [Phrase.RunsOut, Expr.readTier_eq ht, pieces, ih]
    rfl
  | chain ht first more ih =>
    have hread := bind_eq (first.reads more.ends_tail) (ih first.tree)
    rw [← Expr.readTier_eq ht] at hread
    exact hread
  | @right t op e ih =>
    intro left
    have hop : op.val.kind.tier? = some t := tier?_eq_some_iff.2 op.property
    rw [pieces, spell_cons, tokens_token, List.singleton_append, Expr.readChain_cons, if_pos hop,
      ih]
    rfl
  | @link t op right more ih =>
    intro left
    have hop : op.val.kind.tier? = some t := tier?_eq_some_iff.2 op.property
    have hread := bind_eq (f := fun right => Expr.readChain t (.binary left op.val right))
      (right.reads more.ends_tail) (ih (.binary left op.val right.tree))
    rw [pieces, spell_cons, tokens_token, List.singleton_append, Expr.readChain_cons, if_pos hop]
    exact hread
  | operand =>
    rw [Phrase.RunsOut, Expr.readTier_unary, pieces, spell_nil, Expr.readOperand_nil]
    rfl
  | signed sign right ih =>
    have hread : Expr.readOperand (spell right.pieces) =
        ⟨complaints right.pieces, .error .endOfInput, []⟩ := by
      rw [← Expr.readTier_unary]
      exact ih
    rw [Phrase.RunsOut, Expr.readTier_unary, pieces, spell_cons, tokens_token,
      List.singleton_append, Expr.readOperand_cons, if_pos (isUnary_iff.2 sign.property), hread]
    rfl
  | inner opening e ih =>
    rw [Phrase.RunsOut, Expr.readTier_unary, pieces, spell_cons, tokens_token,
      List.singleton_append, Derivation.readOperand_grouping, ih]
    rfl
  | closing opening e =>
    have hread := bind_eq (f := Expr.closeGrouping) (e.reads (ends_nil _)) rfl
    rw [Phrase.RunsOut, Expr.readTier_unary, pieces, spell_cons, tokens_token,
      List.singleton_append, Derivation.readOperand_grouping]
    exact hread

namespace Unfinished

theorem breaks_finish (d : Declaration) (us : List Token) (cause : SyntaxError.Cause) (s : Stmt) :
    Breaks Has d.body us (Stmt.finish cause s us) :=
  breaks_expect_bind ⟨.semicolon d, rfl⟩ fun _ _ => breaks_done _ _

/-- An expression that has only its semicolon behind it. -/
theorem breaks_readPlain (front : List Piece) (us : List Token)
    (hcut : ∀ c : Cut .assignment, Has (front ++ c.pieces))
    (hbody : ∀ e : Derivation .assignment, ∃ d : Declaration, d.body = front ++ [phrase e])
    (cause : SyntaxError.Cause) (build : Expr → Stmt) :
    Breaks Has front us ((Expr.read us).bind fun e => Stmt.finish cause (build e)) := by
  have hread : Breaks Has front us (Expr.read us) :=
    (breaks_readers us).1.lift front (by rintro _ ⟨c, rfl⟩; exact hcut c)
  refine hread.bind fun e hres => ?_
  obtain ⟨e', hd, hnotes⟩ := exists_piece (derives_readers us).1 hres
  obtain ⟨d, hbody⟩ := hbody e'
  refine ⟨[phrase e'], hd, hnotes, ?_⟩
  rw [← hbody]
  exact breaks_finish d _ cause (build e)

theorem breaks_readDeclaration (opening : Terminal (.keyword .varKw)) (us : List Token) :
    Breaks Has [token opening.val] us (Stmt.readDeclaration us) := by
  refine breaks_expect_bind ⟨.name opening, rfl⟩ fun name us => ?_
  refine breaks_expect_bind ⟨.colons opening name, rfl⟩ fun colons us => ?_
  refine breaks_expect_bind ⟨.type opening name colons, rfl⟩ fun type us => ?_
  cases us with
  | nil =>
    exact breaks_finish (.declare opening name colons type none (anyOf _)) []
      .unfinishedDeclaration (.declare name.val type.val none)
  | cons t us =>
    rw [Stmt.readInitial]
    split
    · rename_i ht
      rw [bind_bind]
      refine Breaks.cons ?_
      refine breaks_readPlain _ us (fun c => ?_) (fun e => ?_) .unfinishedDeclaration
        fun e => .declare name.val type.val (some e)
      · exact ⟨.initial opening name colons type ⟨t, ht⟩ c, rfl⟩
      · exact ⟨.declare opening name colons type (some (⟨t, ht⟩, e)) (anyOf _), rfl⟩
    · exact breaks_finish (.declare opening name colons type none (anyOf _)) (t :: us)
        .unfinishedDeclaration (.declare name.val type.val none)

theorem breaks_read (us : List Token) : Breaks Has [] us (Stmt.read us) := by
  have hplain (us : List Token) : Breaks Has [] us (Stmt.readExpression us) :=
    breaks_readPlain [] us (fun c => ⟨.expression c, rfl⟩)
      (fun e => ⟨.expression e (anyOf _), rfl⟩) _ _
  cases us with
  | nil => exact hplain []
  | cons t us =>
    rw [Stmt.read]
    split
    · rename_i ht
      exact (breaks_readDeclaration ⟨t, ht⟩ us).cons
    split
    · rename_i ht
      exact (breaks_readPlain [token t] us (fun c => ⟨.print ⟨t, ht⟩ c, rfl⟩)
        (fun e => ⟨.print ⟨t, ht⟩ e (anyOf _), rfl⟩) _ _).cons
    · exact hplain (t :: us)

theorem readInitial_tokens_nil
    (initial : Option (Terminal (.symbol .equal) × Derivation .assignment)) :
    Stmt.readInitial (Declaration.initialTokens initial) =
      ⟨Declaration.initialNotes initial, .ok (initial.map fun i => i.2.tree), []⟩ := by
  cases initial with
  | none => rfl
  | some i =>
    have hread := bind_eq (f := fun e => Reading.done (some e)) (i.2.reads (ends_nil _)) rfl
    rw [List.append_nil, List.append_nil] at hread
    exact (if_pos i.1.property).trans hread

theorem readDeclaration_cons (name : Terminal .identifier) (colons : Terminal (.symbol .doubleColon))
    (type : Terminal .identifier) (us : List Token) :
    Stmt.readDeclaration (name.val :: colons.val :: type.val :: us) =
      (Stmt.readInitial us).bind fun initial =>
        Stmt.finish .unfinishedDeclaration (.declare name.val type.val initial) := by
  simp only [Stmt.readDeclaration, expect_terminal, done_bind]

/-- The tokens of a declaration but its semicolon. -/
theorem read_body (d : Declaration) :
    Stmt.read (spell d.body) = ⟨complaints d.body, .error .endOfInput, []⟩ := by
  cases d with
  | declare opening name colons type initial closing =>
    have hread := bind_eq
      (f := fun i => Stmt.finish .unfinishedDeclaration (.declare name.val type.val i))
      (readInitial_tokens_nil initial) (Stmt.finish_nil _ _)
    rw [← readDeclaration_cons name colons type, ← Stmt.read_declare opening] at hread
    simpa [Declaration.body, Declaration.spell_initialPieces, Declaration.complaints_initialPieces]
      using hread
  | print opening e closing =>
    have hread := bind_eq (f := fun e => Stmt.finish .unfinishedPrint (.print e))
      (e.reads (ends_nil _)) (Stmt.finish_nil _ _)
    rw [← Stmt.readPrint, ← Stmt.read_print opening] at hread
    simpa [Declaration.body] using hread
  | expression e closing =>
    have hread := bind_eq (f := fun e => Stmt.finish .unfinishedExpression (.expression e))
      (e.reads (ends_nil _)) (Stmt.finish_nil _ _)
    rw [← Stmt.readExpression, ← Stmt.read_expression fun t us h => e.ne_opening h] at hread
    simpa [Declaration.body] using hread

/-- A statement that breaks off is read up to its end, and there a token is missing. -/
theorem read_pieces (u : Unfinished) :
    Stmt.read (spell u.pieces) = ⟨complaints u.pieces, .error .endOfInput, []⟩ := by
  have hcut (e : Cut .assignment) (cause : SyntaxError.Cause) (build : Expr → Stmt) :
      ((Expr.read (spell e.pieces)).bind fun e => Stmt.finish cause (build e)) =
        ⟨complaints e.pieces, .error .endOfInput, []⟩ := by
    rw [e.runsOut]
    rfl
  cases u with
  | name opening => exact Stmt.read_declare opening []
  | colons opening name =>
    refine (Stmt.read_declare opening [name.val]).trans ?_
    rw [Stmt.readDeclaration, expect_terminal]
    rfl
  | type opening name colons =>
    refine (Stmt.read_declare opening [name.val, colons.val]).trans ?_
    rw [Stmt.readDeclaration, expect_terminal, done_bind, expect_terminal]
    rfl
  | initial opening name colons type equals e =>
    refine (Stmt.read_declare opening _).trans ?_
    refine (readDeclaration_cons name colons type _).trans ?_
    have hinitial : Stmt.readInitial (equals.val :: spell e.pieces) =
        ⟨complaints e.pieces, .error .endOfInput, []⟩ := by
      rw [Stmt.readInitial, if_pos equals.property, e.runsOut]
      rfl
    exact congrArg (Reading.bind · _) hinitial
  | print opening e => exact (Stmt.read_print opening _).trans (hcut e _ _)
  | expression e =>
    obtain ⟨d, more, hd⟩ := e.begins
    have hhead (t : Token) (us : List Token) (h : spell e.pieces = t :: us) :
        t.kind ≠ .keyword .varKw ∧ t.kind ≠ .keyword .printKw := by
      rw [h] at hd
      have happend : d.tokens ++ [] = t :: (us ++ more) := by
        rw [List.append_nil, hd, List.cons_append]
      exact d.ne_opening happend
    exact (Stmt.read_expression hhead).trans (hcut e _ _)
  | semicolon d => exact read_body d

theorem begins (u : Unfinished) : Declaration.Begins (spell u.pieces) := by
  have hcut (e : Cut .assignment) :
      ∃ (d : Derivation .assignment) (more : List Token), d.tokens = spell e.pieces ++ more :=
    e.begins
  cases u with
  | name opening => exact ⟨.declare opening (anyOf _) (anyOf _) (anyOf _) none (anyOf _), _, rfl⟩
  | colons opening name => exact ⟨.declare opening name (anyOf _) (anyOf _) none (anyOf _), _, rfl⟩
  | type opening name colons =>
    exact ⟨.declare opening name colons (anyOf _) none (anyOf _), _, rfl⟩
  | initial opening name colons type equals e =>
    obtain ⟨d, more, hd⟩ := hcut e
    refine ⟨.declare opening name colons type (some (equals, d)) (anyOf _),
      more ++ [(anyOf (.symbol .semicolon)).val], ?_⟩
    simp [Declaration.tokens, Declaration.initialTokens, pieces, hd]
  | print opening e =>
    obtain ⟨d, more, hd⟩ := hcut e
    refine ⟨.print opening d (anyOf _), more ++ [(anyOf (.symbol .semicolon)).val], ?_⟩
    simp [Declaration.tokens, pieces, hd]
  | expression e =>
    obtain ⟨d, more, hd⟩ := hcut e
    refine ⟨.expression d (anyOf _), more ++ [(anyOf (.symbol .semicolon)).val], ?_⟩
    simp [Declaration.tokens, pieces, hd]
  | semicolon d => exact ⟨d, [d.closing.val], d.tokens_eq⟩

end Unfinished

end Grammar

end TreeWalk

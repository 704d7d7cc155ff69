import TreeWalk.Proofs.Grammar.Unfinished

/-! Errors of syntax come as early as they can. What was read before the offending token is the
beginning of a declaration, and with that token it no longer is. -/
namespace TreeWalk

namespace Reading

/-- After `front`, where the reading fails, all that was taken up to there is a beginning. -/
def Viable {α : Type} (B : List Token → Prop) (front us : List Token) (r : Reading α) : Prop :=
  ∀ e, r.result = .error e → ∃ taken, us = taken ++ r.rest ∧ B (front ++ taken)

end Reading

namespace Grammar

open Reading

namespace Declaration

/-- What was taken of a declaration that fails can be completed. -/
theorem viable_read (ts : List Token) : Viable Begins [] ts (Stmt.read ts) := by
  intro e he
  obtain ⟨pieces, htaken, -, u, rfl⟩ := Unfinished.breaks_read ts e he
  exact ⟨_, htaken, u.begins⟩

/-- With the token at which its reading fails, no declaration begins. -/
theorem not_begins_of_read_error {front rest : List Token} {t : Token} {e : SyntaxError}
    (h : (Stmt.read (front ++ t :: rest)).result = .error e)
    (hrest : (Stmt.read (front ++ t :: rest)).rest = t :: rest) : ¬Begins (front ++ [t]) := by
  rintro ⟨d, more, hd⟩
  have hok := d.read_tokens []
  rw [List.append_nil, hd, List.append_assoc, List.singleton_append,
    Stmt.read_of_error_at h hrest more] at hok
  cases congrArg Reading.result hok

end Declaration

end Grammar

namespace Program

/-- The places in a token list at which reading it begins a declaration. -/
inductive Starts (ts : List Token) : List Token → Prop
  | first (h : ¬atEnd ts) : Starts ts ts
  | next {us : List Token} (hus : Starts ts us) (h : ¬atEnd (following (Stmt.read us))) :
    Starts ts (following (Stmt.read us))

theorem resume_suffix (ts : List Token) : resume ts <:+ ts := by
  cases ts with
  | nil => exact List.suffix_rfl
  | cons t ts =>
    rw [resume]
    split
    · exact List.suffix_rfl
    · exact (resumeAfter_suffix t ts).trans (List.suffix_cons t ts)

theorem following_read_suffix (ts : List Token) : following (Stmt.read ts) <:+ ts := by
  have hrest := (Stmt.advances_read ts).1
  unfold following
  split
  · exact hrest
  · exact (resume_suffix _).trans hrest

theorem Starts.suffix {ts us : List Token} (h : Starts ts us) : us <:+ ts := by
  induction h with
  | first h => exact List.suffix_rfl
  | @next us hus h ih => exact (following_read_suffix us).trans ih

/-- What is read at such a place is among the items, and what follows it comes next. -/
theorem Starts.items_eq {ts us : List Token} (h : Starts ts us) :
    ∃ before, (Program.read ts).items = before ++ itemsOf (Stmt.read us) ++
      (Program.read (following (Stmt.read us))).items := by
  induction h with
  | first h => exact ⟨[], by rw [read_of_not_atEnd h]; rfl⟩
  | @next us hus h ih =>
    obtain ⟨before, hitems⟩ := ih
    refine ⟨before ++ itemsOf (Stmt.read us), ?_⟩
    rw [hitems, read_of_not_atEnd h]
    simp [Outline.after]

end Program

namespace Grammar

open Program

/-- Where a declaration begins and its reading fails, the tokens before the first one left can be
completed to a declaration. The error is at that token, and no declaration begins with the tokens
through it. Where no token is left, the error is that the input has ended: the tokens are a proper
beginning of a declaration, and none themselves. -/
theorem error_at_first_misfit {ts us : List Token} (h : Starts ts us) {e : SyntaxError}
    (he : (Stmt.read us).result = .error e) :
    (∃ before, (Program.read ts).items =
      before ++ .error e :: (Program.read (following (Stmt.read us))).items) ∧
    ∃ before front, ts = before ++ us ∧ us = front ++ (Stmt.read us).rest ∧
      (∃ (d : Declaration) (more : List Token), d.tokens = front ++ more) ∧
      match (Stmt.read us).rest with
      | t :: _ => (∃ cause, cause ≠ .invalidTarget ∧ e = .atToken t cause) ∧
        ∀ (d : Declaration) (more : List Token), d.tokens ≠ front ++ t :: more
      | [] => e = .endOfInput ∧ (∀ d : Declaration, d.tokens ≠ front) ∧
        ∃ (d : Declaration) (more : List Token), more ≠ [] ∧ d.tokens = front ++ more := by
  obtain ⟨items, hitems⟩ := h.items_eq
  obtain ⟨before, hbefore⟩ := h.suffix
  obtain ⟨front, hfront, d, more, hd⟩ := Declaration.viable_read us e he
  have hblames := Stmt.blames_read he
  refine ⟨⟨items ++ (Stmt.read us).notes.map .error, ?_⟩, before, front, hbefore.symm, hfront,
    ⟨d, more, hd⟩, ?_⟩
  · rw [hitems, itemsOf, he]
    simp [Item.ofResult]
  cases hrest : (Stmt.read us).rest with
  | cons t rest =>
    rw [hrest] at hblames hfront
    refine ⟨hblames, fun d' more' hd' => ?_⟩
    rw [hfront] at he hrest
    exact Declaration.not_begins_of_read_error he hrest ⟨d', more', by simpa using hd'⟩
  | nil =>
    rw [hrest] at hblames hfront
    rw [List.append_nil] at hfront
    have hnone (d' : Declaration) : d'.tokens ≠ front := by
      intro hd'
      have hread := d'.read_tokens []
      rw [List.append_nil, hd', ← hfront] at hread
      rw [hread] at he
      cases he
    refine ⟨hblames, hnone, d, more, ?_, hd⟩
    rintro rfl
    exact hnone d (by simpa using hd)

/-- The tokens `print ( true ;` fail at the semicolon, and could have gone on before it. -/
theorem error_at_unclosed_grouping :
    ∃ (opening paren value closing : Token) (ts : List Token),
      ts = [opening, paren, value, closing, ⟨.endOfFile, "", 1⟩] ∧
      (Stmt.read ts).result = .error (.atToken closing .unclosedGrouping) ∧
      (∃ (d : Declaration) (more : List Token),
        d.tokens = [opening, paren, value] ++ more) ∧
      ∀ (d : Declaration) (more : List Token),
        d.tokens ≠ [opening, paren, value] ++ closing :: more := by
  let closing : Token := ⟨.symbol .semicolon, ";", 1⟩
  let ts : List Token := [⟨.keyword .printKw, "print", 1⟩, ⟨.symbol .leftParen, "(", 1⟩,
    ⟨.keyword .trueKw, "true", 1⟩, closing, ⟨.endOfFile, "", 1⟩]
  have hread : Stmt.read ts =
      ⟨[], .error (.atToken closing .unclosedGrouping), [closing, ⟨.endOfFile, "", 1⟩]⟩ := by
    simp [ts, closing, Stmt.read, Stmt.readPrint, Expr.read_eq, Expr.readTier_eq,
      Expr.readTier_unary, Tier.operand, Expr.readOperand_cons, Expr.readChain_cons,
      Expr.readAssigned, Expr.closeGrouping, Token.Kind.isUnary, Token.Kind.literal?,
      Token.Kind.tier?, Symbol.tier?, Reading.expect, Reading.bind, Reading.done, Reading.fail]
  have hstarts : Starts ts ts := .first (by simp [ts, atEnd])
  have herror : (Stmt.read ts).result = .error (.atToken closing .unclosedGrouping) := by
    rw [hread]
  obtain ⟨-, before, front, -, hfront, hbegins, hmisfit⟩ := error_at_first_misfit hstarts herror
  simp only [hread] at hfront hmisfit
  have hsplit : [⟨.keyword .printKw, "print", 1⟩, ⟨.symbol .leftParen, "(", 1⟩,
      ⟨.keyword .trueKw, "true", 1⟩] ++ [closing, ⟨.endOfFile, "", 1⟩] =
        front ++ [closing, ⟨.endOfFile, "", 1⟩] := hfront
  obtain rfl := List.append_cancel_right hsplit
  exact ⟨_, _, _, closing, ts, rfl, herror, hbegins, hmisfit.2⟩

end Grammar

end TreeWalk

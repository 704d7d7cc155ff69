import TreeWalk.Proofs.Grammar.Reader

/-! How reading a statement ends: behind its semicolon, or at a token that no token before it could
have ended. Either way nothing beyond that place was looked at. -/
namespace TreeWalk

namespace Reading

variable {α β γ : Type}

theorem bind_bind (r : Reading α) (f : α → List Token → Reading β)
    (g : β → List Token → Reading γ) :
    (r.bind f).bind g = r.bind fun a us => (f a us).bind g := by
  cases hr : r.result with
  | error e =>
    rw [bind_error hr, bind_error hr]
    rfl
  | ok a =>
    rw [bind_of_ok hr, bind_of_ok hr]
    cases hf : (f a r.rest).result with
    | error e => rw [bind_error hf, bind_error rfl]
    | ok b =>
      rw [bind_of_ok hf, bind_of_ok rfl]
      simp only [List.append_assoc]

theorem expect_terminal {kind : Token.Kind} (cause : SyntaxError.Cause) (t : Terminal kind)
    (ts : List Token) : expect kind cause (t.val :: ts) = done t.val ts := by
  rw [expect, if_pos t.property]

end Reading

namespace Stmt

open Reading

/-- The complaint where the semicolon of a statement is missing. -/
def unfinished : Stmt → SyntaxError.Cause
  | expression _ => .unfinishedExpression
  | print _ => .unfinishedPrint
  | declare _ _ _ => .unfinishedDeclaration

/-- What follows `var`, without the semicolon. -/
def readOpenDeclaration (ts : List Token) : Reading Stmt :=
  (expect .identifier .missingName ts).bind fun name ts =>
  (expect (.symbol .doubleColon) .missingDoubleColon ts).bind fun _ ts =>
  (expect .identifier .missingType ts).bind fun annotation ts =>
  (readInitial ts).bind fun initial => done (declare name annotation initial)

/-- A statement without its semicolon. -/
def readOpen : List Token → Reading Stmt
  | [] => (Expr.read []).bind fun e => done (expression e)
  | t :: ts =>
    if t.kind = .keyword .varKw then readOpenDeclaration ts
    else if t.kind = .keyword .printKw then (Expr.read ts).bind fun e => done (print e)
    else (Expr.read (t :: ts)).bind fun e => done (expression e)

theorem read_declare (opening : Terminal (.keyword .varKw)) (ts : List Token) :
    read (opening.val :: ts) = readDeclaration ts := if_pos opening.property

theorem read_print (opening : Terminal (.keyword .printKw)) (ts : List Token) :
    read (opening.val :: ts) = readPrint ts := by
  have hne : opening.val.kind ≠ .keyword .varKw := by simp [opening.property]
  rw [read, if_neg hne, if_pos opening.property]

/-- What no keyword opens is read as an expression. -/
theorem read_expression {ts : List Token}
    (h : ∀ t us, ts = t :: us → t.kind ≠ .keyword .varKw ∧ t.kind ≠ .keyword .printKw) :
    read ts = readExpression ts := by
  cases ts with
  | nil => rfl
  | cons t us =>
    obtain ⟨hvar, hprint⟩ := h t us rfl
    rw [read, if_neg hvar, if_neg hprint]

/-- A statement is read up to its semicolon first. -/
theorem read_eq (ts : List Token) :
    read ts = (readOpen ts).bind fun s => finish s.unfinished s := by
  cases ts with
  | nil => rw [readOpen, bind_bind]; rfl
  | cons t ts =>
    rw [read, readOpen]
    split
    · simp only [readOpenDeclaration, bind_bind, done_bind]
      rfl
    split
    · simp only [bind_bind, done_bind]
      rfl
    · simp only [bind_bind, done_bind]
      rfl

theorem finish_nil (cause : SyntaxError.Cause) (s : Stmt) :
    finish cause s [] = ⟨[], .error .endOfInput, []⟩ := rfl

theorem finish_closing (cause : SyntaxError.Cause) (s : Stmt)
    (closing : Terminal (.symbol .semicolon)) (ts : List Token) :
    finish cause s (closing.val :: ts) = done s ts := by
  rw [finish, expect_terminal, done_bind]

/-- Where the semicolon is missing, the token in its place is to blame. -/
theorem finish_of_ne (cause : SyntaxError.Cause) (s : Stmt) {t : Token}
    (ht : t.kind ≠ .symbol .semicolon) (ts : List Token) :
    finish cause s (t :: ts) = ⟨[], .error (.atToken t cause), t :: ts⟩ := by
  rw [finish, expect, if_neg ht, fail_bind]
  rfl

theorem accounts_readInitial (ts : List Token) : (readInitial ts).Accounts ts := by
  cases ts with
  | nil => exact .done none []
  | cons t ts =>
    rw [readInitial]
    split
    · rename_i ht
      refine ((Expr.accounts_readers ts).1.bind fun _ _ => .done _ _).cons ?_
      simp [Token.Inner, ht]
    · exact .done none (t :: ts)

theorem accounts_readOpenDeclaration (ts : List Token) :
    (readOpenDeclaration ts).Accounts ts := by
  have inner {k : Token.Kind} (hs : k ≠ .symbol .semicolon) (he : k ≠ .endOfFile) :
      ∀ t : Token, t.kind = k → t.Inner := by
    rintro t rfl
    exact ⟨hs, he⟩
  refine (Accounts.expect (by simp) (inner (by simp) (by simp)) ts).bind fun _ _ => ?_
  refine (Accounts.expect (by simp) (inner (by simp) (by simp)) _).bind fun _ _ => ?_
  refine (Accounts.expect (by simp) (inner (by simp) (by simp)) _).bind fun _ _ => ?_
  exact (accounts_readInitial _).bind fun _ _ => .done _ _

theorem accounts_readOpen (ts : List Token) : (readOpen ts).Accounts ts := by
  cases ts with
  | nil => exact (Expr.accounts_readers []).1.bind fun _ _ => .done _ _
  | cons t ts =>
    rw [readOpen]
    split
    · rename_i ht
      refine (accounts_readOpenDeclaration ts).cons ?_
      simp [Token.Inner, ht]
    split
    · rename_i ht
      refine ((Expr.accounts_readers ts).1.bind fun _ _ => .done _ _).cons ?_
      simp [Token.Inner, ht]
    · exact (Expr.accounts_readers (t :: ts)).1.bind fun _ _ => .done _ _

/-- A statement ends with an error at the first token left, or behind its semicolon. -/
theorem read_outcome (ts : List Token) :
    (∃ e, e.Blames (readOpen ts).rest ∧
      read ts = ⟨(readOpen ts).notes, .error e, (readOpen ts).rest⟩) ∨
    ∃ (s : Stmt) (closing : Terminal (.symbol .semicolon)) (rest : List Token),
      (readOpen ts).rest = closing.val :: rest ∧ read ts = ⟨(readOpen ts).notes, .ok s, rest⟩ := by
  rw [read_eq]
  cases hres : (readOpen ts).result with
  | error e => exact .inl ⟨e, (accounts_readOpen ts).blames e hres, bind_error hres _⟩
  | ok s =>
    rw [bind_of_ok hres]
    cases (readOpen ts).rest with
    | nil => exact .inl ⟨.endOfInput, rfl, by rw [finish_nil, List.append_nil]⟩
    | cons t rest =>
      by_cases ht : t.kind = .symbol .semicolon
      · refine .inr ⟨s, ⟨t, ht⟩, rest, rfl, ?_⟩
        rw [finish_closing s.unfinished s ⟨t, ht⟩, done, List.append_nil]
      · refine .inl ⟨.atToken t s.unfinished, ⟨s.unfinished, ?_, rfl⟩, ?_⟩
        · cases s <;> simp [unfinished]
        · rw [finish_of_ne s.unfinished s ht, List.append_nil]

theorem notes_read (ts : List Token) : (read ts).notes = (readOpen ts).notes := by
  rcases read_outcome ts with ⟨e, -, hread⟩ | ⟨s, closing, rest, -, hread⟩ <;> rw [hread]

theorem blames_read {ts : List Token} {e : SyntaxError} (h : (read ts).result = .error e) :
    e.Blames (read ts).rest := by
  rcases read_outcome ts with ⟨e', hblames, hread⟩ | ⟨s, closing, rest, -, hread⟩
  · rw [hread] at h ⊢
    cases h
    exact hblames
  · rw [hread] at h
    cases h

/-- Taking a statement stops before the marker of the end. -/
theorem exists_taken (ts : List Token) :
    ∃ taken, taken ++ (read ts).rest = ts ∧ Token.NoneEnds taken := by
  obtain ⟨front, hfront, hinner, -⟩ := (accounts_readOpen ts).taken
  have hends : Token.NoneEnds front := fun t ht => (hinner t ht).2
  rcases read_outcome ts with ⟨e, -, hread⟩ | ⟨s, closing, rest, hrest, hread⟩
  · rw [hread]
    exact ⟨front, hfront, hends⟩
  · rw [hrest] at hfront
    rw [hread]
    refine ⟨front ++ [closing.val], by rwa [List.append_assoc], ?_⟩
    exact List.forall_mem_append.2 ⟨hends, List.forall_mem_singleton.2 (by simp [closing.property])⟩

theorem extends_readInitial (us ts : List Token) :
    Extends us (readInitial ts) (readInitial (ts ++ us)) := by
  cases ts with
  | nil => exact extends_of_rest_eq_nil rfl (rest_readInitial_suffix us)
  | cons t ts =>
    rw [List.cons_append, readInitial, readInitial]
    split
    · exact (Expr.extends_readers us ts).1.bind (fun _ _ => extends_before _ us)
        fun _ _ => List.suffix_rfl
    · exact extends_before _ us

theorem extends_readOpenDeclaration (us ts : List Token) :
    Extends us (readOpenDeclaration ts) (readOpenDeclaration (ts ++ us)) := by
  have hinitial (g : Option Expr → Stmt) (vs : List Token) :
      ((readInitial vs).bind fun i => done (g i)).rest <:+ vs :=
    rest_bind_suffix (rest_readInitial_suffix vs) fun _ => List.suffix_rfl
  have hexpect {f : Token → List Token → Reading Stmt} (hf : ∀ t vs, (f t vs).rest <:+ vs)
      (kind : Token.Kind) (cause : SyntaxError.Cause) (vs : List Token) :
      ((expect kind cause vs).bind f).rest <:+ vs :=
    rest_bind_suffix (advances_expect kind cause vs).1 fun t => hf t _
  refine (extends_expect _ _ us ts).bind (fun name _ => ?_)
    fun name => hexpect (fun _ => hexpect (fun type => hinitial _) _ _) _ _
  refine (extends_expect _ _ us _).bind (fun _ _ => ?_)
    fun _ => hexpect (fun type => hinitial _) _ _
  refine (extends_expect _ _ us _).bind (fun type _ => ?_) fun type => hinitial _
  exact (extends_readInitial us _).bind (fun _ _ => extends_before _ us)
    fun _ _ => List.suffix_rfl

/-- A statement without its semicolon is read no further than the first token left. -/
theorem extends_readOpen (us ts : List Token) :
    Extends us (readOpen ts) (readOpen (ts ++ us)) := by
  have hplain (build : Expr → Stmt) (vs : List Token) :
      Extends us ((Expr.read vs).bind fun e => done (build e))
        ((Expr.read (vs ++ us)).bind fun e => done (build e)) :=
    (Expr.extends_readers us vs).1.bind (fun _ _ => extends_before _ us)
      fun _ _ => List.suffix_rfl
  cases ts with
  | nil =>
    exact extends_of_rest_eq_nil (List.suffix_nil.1 (accounts_readOpen []).suffix)
      (accounts_readOpen us).suffix
  | cons t ts =>
    rw [List.cons_append, readOpen, readOpen]
    split
    · exact extends_readOpenDeclaration us ts
    split
    · exact hplain print ts
    · exact hplain expression (t :: ts)

theorem extends_finish (cause : SyntaxError.Cause) (s : Stmt) (us ts : List Token) :
    Extends us (finish cause s ts) (finish cause s (ts ++ us)) :=
  (extends_expect _ _ us ts).bind (fun _ _ => extends_before _ us) fun _ _ => List.suffix_rfl

theorem extends_read (us ts : List Token) : Extends us (read ts) (read (ts ++ us)) := by
  rw [read_eq, read_eq]
  exact (extends_readOpen us ts).bind (fun s _ => extends_finish s.unfinished s us _)
    fun s vs => (advances_finish _ s vs).1

/-- A statement that fails at a token does so whatever follows that token. -/
theorem read_of_error_at {front rest : List Token} {t : Token} {e : SyntaxError}
    (h : (read (front ++ t :: rest)).result = .error e)
    (hrest : (read (front ++ t :: rest)).rest = t :: rest) (us : List Token) :
    read (front ++ t :: us) = ⟨(read (front ++ t :: rest)).notes, .error e, t :: us⟩ := by
  have hsplit (vs : List Token) : front ++ t :: vs = front ++ [t] ++ vs := by simp
  have hne : (read (front ++ [t])).rest ≠ [] := by
    intro hnil
    have hle := ((extends_read rest (front ++ [t])).suffix hnil).length_le
    rw [← hsplit, hrest] at hle
    exact absurd hle (by simp)
  have hbefore (vs : List Token) : read (front ++ t :: vs) = (read (front ++ [t])).before vs := by
    rw [hsplit]
    exact (extends_read vs (front ++ [t])).before hne
  have herror : (read (front ++ [t])).result = .error e := by rwa [hbefore rest] at h
  have hlast : (read (front ++ [t])).rest = [t] := by
    rw [hbefore rest] at hrest
    exact List.append_cancel_right (hrest : _ ++ rest = [t] ++ rest)
  rw [hbefore us, hbefore rest, before, herror, hlast]
  rfl

/-- A statement whose end was in sight is read as it is, whatever follows it. -/
theorem read_before {ts : List Token} (us : List Token) (h : (readOpen ts).rest ≠ []) :
    read (ts ++ us) = (read ts).before us := by
  have hfinish (s : Stmt) (vs : List Token) (hvs : vs ≠ []) :
      finish s.unfinished s (vs ++ us) = (finish s.unfinished s vs).before us := by
    cases vs with
    | nil => exact absurd rfl hvs
    | cons t vs =>
      simp only [List.cons_append, finish, expect]
      split <;> rfl
  rw [read_eq, (extends_readOpen us ts).before h, read_eq]
  exact before_bind fun s _ => hfinish s _ h

end Stmt

end TreeWalk

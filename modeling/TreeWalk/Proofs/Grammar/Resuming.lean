import Mathlib.Order.Bounds.Basic
import TreeWalk.Proofs.Grammar.Chunk
import TreeWalk.Proofs.Grammar.Viable

/-! Where reading resumes after a statement that fails. The offending token is dropped whatever it
is; from then on the nearest place where a statement can begin is taken. What was read before does
not depend on what follows the offending token, nor what is read afterwards on what was dropped. -/
namespace TreeWalk

namespace Stmt

open Grammar Grammar.Piece Reading

theorem read_nil : read [] = ⟨[], .error .endOfInput, []⟩ := by
  rw [read, readExpression, Expr.read_eq]
  simp only [Expr.readTier_eq, Expr.readTier_unary, Tier.operand, Expr.readOperand_nil, ne_eq,
    reduceCtorEq, not_false_eq_true, fail_bind]
  rfl

/-- What a failing statement has taken runs out of tokens, with nothing behind it. -/
theorem read_of_taken {taken us : List Token} {e : SyntaxError}
    (htaken : taken ++ (read us).rest = us) (he : (read us).result = .error e) :
    read taken = ⟨(read us).notes, .error .endOfInput, []⟩ := by
  obtain ⟨pieces, hpieces, hnotes, u, rfl⟩ := Unfinished.breaks_read us e he
  obtain rfl : taken = spell u.pieces := by
    apply List.append_cancel_right (htaken.trans hpieces)
  rw [u.read_pieces, hnotes]

end Stmt

namespace Program

open Grammar

/-- A statement can begin here after a failure: behind a semicolon, at a token that opens a
declaration, or where reading ends. -/
def ResumesAt (ts : List Token) (p : Nat) : Prop :=
  (∃ t ∈ ts[p - 1]?, t.kind = .symbol .semicolon) ∨ (∃ t ∈ ts[p]?, opensDeclaration t) ∨
    atEnd (ts.drop p)

variable {ts us : List Token}

theorem resumesAt_succ_iff {k : Nat} {dropped t : Token} (h : ts.drop k = dropped :: t :: us) :
    ResumesAt ts (k + 1) ↔
      dropped.kind = .symbol .semicolon ∨ t.kind = .endOfFile ∨ opensDeclaration t := by
  have hdropped : ts[k]? = some dropped := by rw [← List.head?_drop, h]; rfl
  have hnext : ts.drop (k + 1) = t :: us := by rw [← List.tail_drop, h]; rfl
  have ht : ts[k + 1]? = some t := by rw [← List.head?_drop, hnext]; rfl
  simp only [ResumesAt, Nat.add_sub_cancel, hdropped, ht, hnext, atEnd, Option.mem_some_iff,
    exists_eq_left', decide_eq_true_eq]
  exact or_congr_right or_comm

/-- The search for a place to resume finds the first one behind the token that was dropped. -/
theorem resumeAfter_eq_drop {k : Nat} {dropped : Token} (h : ts.drop k = dropped :: us) :
    ∃ p, IsLeast {p | k < p ∧ ResumesAt ts p} p ∧ resumeAfter dropped us = ts.drop p := by
  induction us generalizing k dropped with
  | nil =>
    have hnext : ts.drop (k + 1) = [] := by rw [← List.tail_drop, h]; rfl
    refine ⟨k + 1, ⟨⟨Nat.lt_succ_self k, .inr (.inr ?_)⟩, fun p hp => hp.1⟩, hnext.symm⟩
    rw [hnext]
    rfl
  | cons t us ih =>
    have hnext : ts.drop (k + 1) = t :: us := by rw [← List.tail_drop, h]; rfl
    rw [resumeAfter]
    split
    · rename_i hstop
      exact ⟨k + 1, ⟨⟨Nat.lt_succ_self k, (resumesAt_succ_iff h).2 hstop⟩, fun p hp => hp.1⟩,
        hnext.symm⟩
    · rename_i hgo
      obtain ⟨p, ⟨⟨hlt, hp⟩, hleast⟩, hresume⟩ := ih hnext
      refine ⟨p, ⟨⟨Nat.lt_of_succ_lt hlt, hp⟩, ?_⟩, hresume⟩
      rintro q ⟨hq, hresumes⟩
      rcases Nat.eq_or_lt_of_le (Nat.succ_le_of_lt hq) with rfl | hq
      · exact absurd ((resumesAt_succ_iff h).1 hresumes) hgo
      · exact hleast ⟨hq, hresumes⟩

theorem resume_eq_drop {j : Nat} (h : ¬atEnd (ts.drop j)) :
    ∃ p, IsLeast {p | j < p ∧ ResumesAt ts p} p ∧ resume (ts.drop j) = ts.drop p := by
  cases hj : ts.drop j with
  | nil =>
    rw [hj] at h
    exact absurd rfl h
  | cons t us =>
    have ht : t.kind ≠ .endOfFile := by simpa [hj, atEnd] using h
    rw [resume, if_neg ht]
    exact resumeAfter_eq_drop hj

/-- Only its first token decides whether reading resumes at a list. -/
theorem resumeAfter_append {dropped : Token} {skipped us us' : List Token}
    (h : resumeAfter dropped (skipped ++ us) = us) (hus : us ≠ [])
    (hhead : us' = [] ∨ us'.head? = us.head?) : resumeAfter dropped (skipped ++ us') = us' := by
  induction skipped generalizing dropped with
  | nil =>
    cases us' with
    | nil => rfl
    | cons t' us' =>
      cases us with
      | nil => exact absurd rfl hus
      | cons t us =>
        obtain rfl : t' = t := by simpa using hhead
        rw [List.nil_append, resumeAfter] at h ⊢
        split
        · rfl
        · rename_i hgo
          rw [if_neg hgo] at h
          have hle := (resumeAfter_suffix t' us).length_le
          rw [h] at hle
          exact absurd hle (by simp)
  | cons s skipped ih =>
    rw [List.cons_append, resumeAfter] at h ⊢
    split
    · rename_i hstop
      rw [if_pos hstop] at h
      have hlength := congrArg List.length h
      simp at hlength
      omega
    · rename_i hgo
      rw [if_neg hgo] at h
      exact ih h

theorem Starts.not_atEnd (h : Starts ts us) : ¬atEnd us := by
  cases h with
  | first h => exact h
  | next _ h => exact h

theorem not_atEnd_swap {front us vs : List Token} {t : Token} (h : ¬atEnd (front ++ t :: us)) :
    ¬atEnd (front ++ t :: vs) := by
  cases front <;> simpa [atEnd] using h

/-- A statement and what is skipped after it stay the same with other tokens behind them, if these
begin as before or are none. -/
theorem exists_read_append {us : List Token} (hend : ¬atEnd us)
    (hnext : ¬atEnd (following (Stmt.read us))) :
    ∃ front, us = front ++ following (Stmt.read us) ∧
      ∀ vs, vs = [] ∨ vs.head? = (following (Stmt.read us)).head? →
        read (front ++ vs) = (read vs).after (itemsOf (Stmt.read us)) := by
  cases hres : (Stmt.read us).result with
  | ok s =>
    obtain ⟨d, rest, rfl⟩ := Declaration.exists_of_read_ok hres
    rw [d.read_tokens]
    refine ⟨d.tokens, rfl, fun vs _ => ?_⟩
    rw [read_of_not_atEnd (d.not_atEnd vs), d.read_tokens]
    rfl
  | error e =>
    obtain ⟨taken, htaken⟩ := (Stmt.advances_read us).1
    have hfollowing : following (Stmt.read us) = resume (Stmt.read us).rest := by
      rw [following, hres]
    cases hrest : (Stmt.read us).rest with
    | nil =>
      rw [hfollowing, hrest] at hnext
      exact absurd rfl hnext
    | cons t rest =>
      rw [hrest] at htaken hfollowing
      subst htaken
      have ht : t.kind ≠ .endOfFile := by
        intro ht
        rw [hfollowing, resume, if_pos ht] at hnext
        exact hnext (by simp [atEnd, ht])
      rw [resume, if_neg ht] at hfollowing
      obtain ⟨skipped, hskipped⟩ := resumeAfter_suffix t rest
      rw [← hfollowing] at hskipped
      refine ⟨taken ++ t :: skipped, by simp [hskipped], fun vs hvs => ?_⟩
      -- the offending token is still there, so the error is the same and `skipped` is skipped
      have hresume : resumeAfter t (skipped ++ vs) = vs := by
        refine resumeAfter_append ?_ ?_ hvs
        · rw [hskipped, ← hfollowing]
        · intro hnil
          rw [hnil] at hnext
          exact hnext rfl
      have hread := Stmt.read_of_error_at hres hrest (skipped ++ vs)
      rw [List.append_assoc, List.cons_append, read_of_not_atEnd (not_atEnd_swap hend), hread,
        following, resume, if_neg ht, hresume, itemsOf, itemsOf, hres]

/-- What was read before a statement does not depend on more of it than its first token. -/
theorem Starts.exists_read_append {ts us : List Token} (h : Starts ts us) :
    ∃ front before, ts = front ++ us ∧
      ∀ vs, vs = [] ∨ vs.head? = us.head? → read (front ++ vs) = (read vs).after before := by
  induction h with
  | first h => exact ⟨[], [], rfl, fun vs _ => rfl⟩
  | @next us hus hnext ih =>
    obtain ⟨front, before, rfl, hbefore⟩ := ih
    obtain ⟨mid, hmid, hread⟩ := Program.exists_read_append hus.not_atEnd hnext
    -- `us` begins with the same token whatever follows `mid`, unless `mid` is empty
    refine ⟨front ++ mid, before ++ itemsOf (Stmt.read us), ?_, fun vs hvs => ?_⟩
    · rw [List.append_assoc, ← hmid]
    · have hhead : mid ++ vs = [] ∨ (mid ++ vs).head? = us.head? := by
        cases mid with
        | nil =>
          rw [hmid]
          exact hvs
        | cons t mid =>
          rw [hmid]
          exact .inr rfl
      rw [List.append_assoc, hbefore _ hhead, hread vs hvs]
      simp [Outline.after]

/-- Alone, what a failing statement has taken gives its notes and the complaint that it ends. -/
theorem items_read_taken {taken us : List Token} {e : SyntaxError}
    (htaken : taken ++ (Stmt.read us).rest = us) (hend : ¬atEnd us)
    (he : (Stmt.read us).result = .error e) :
    (read taken).items = (Stmt.read us).notes.map .error ++
      (if us = (Stmt.read us).rest then [] else [.error .endOfInput]) := by
  have hshort := Stmt.read_of_taken htaken he
  cases taken with
  | nil =>
    have hnotes : (Stmt.read us).notes = [] := by
      rw [Stmt.read_nil] at hshort
      exact (congrArg Reading.notes hshort).symm
    rw [List.nil_append] at htaken
    rw [if_pos htaken.symm, read_of_atEnd rfl, hnotes]
    rfl
  | cons t taken =>
    have hne : us ≠ (Stmt.read us).rest := by
      intro hus
      have hlength := congrArg List.length htaken
      rw [← hus, List.length_append, List.length_cons] at hlength
      omega
    have hstart : ¬atEnd (t :: taken) := by rwa [← htaken] at hend
    rw [if_neg hne, read_of_not_atEnd hstart, hshort, following, resume, read_of_atEnd rfl]
    simp [Outline.after, itemsOf, Item.ofResult]

/-- Where a statement fails at the end, reading ends. Elsewhere it resumes at the first place behind
the offending token where a statement can begin, as if the tokens from there on were all. The items
before the error are those of the tokens before the offending one, but for the complaint that these
come to an end. -/
theorem resumes_at_first_place (h : Starts ts us) {e : SyntaxError}
    (he : (Stmt.read us).result = .error e) :
    ∃ j before, j ≤ ts.length ∧ (Stmt.read us).rest = ts.drop j ∧ e.Blames (ts.drop j) ∧
      (read (ts.take j)).items =
        before ++ (if us = ts.drop j then [] else [.error .endOfInput]) ∧
      (atEnd (ts.drop j) → read ts = ⟨before ++ [.error e], ts.drop j⟩) ∧
      (¬atEnd (ts.drop j) → ∃ p, IsLeast {p | j < p ∧ ResumesAt ts p} p ∧
        following (Stmt.read us) = ts.drop p ∧
        read ts = (read (ts.drop p)).after (before ++ [.error e])) := by
  obtain ⟨front, before, hts, hbefore⟩ := h.exists_read_append
  obtain ⟨taken, htaken⟩ := (Stmt.advances_read us).1
  have hsplit : ts = front ++ taken ++ (Stmt.read us).rest := by
    rw [List.append_assoc, htaken, hts]
  have hdrop : ts.drop (front ++ taken).length = (Stmt.read us).rest := by
    rw [hsplit]
    exact List.drop_left
  have htake : ts.take (front ++ taken).length = front ++ taken := by
    rw [hsplit]
    exact List.take_left
  have hread : read ts = (read (following (Stmt.read us))).after
      (before ++ (Stmt.read us).notes.map .error ++ [.error e]) := by
    rw [hts, hbefore us (.inr rfl), read_of_not_atEnd h.not_atEnd, itemsOf, he]
    simp [Outline.after, Item.ofResult]
  have hfollowing : following (Stmt.read us) = resume (Stmt.read us).rest := by rw [following, he]
  refine ⟨(front ++ taken).length, before ++ (Stmt.read us).notes.map .error, ?_, hdrop.symm,
    ?_, ?_, ?_, ?_⟩
  · have hlength := congrArg List.length hsplit
    rw [List.length_append] at hlength
    omega
  · rw [hdrop]
    exact Stmt.blames_read he
  · have hhead : taken = [] ∨ taken.head? = us.head? := by
      cases taken with
      | nil => exact .inl rfl
      | cons t taken => exact .inr (by rw [← htaken]; rfl)
    rw [htake, hdrop, hbefore taken hhead, Outline.after, items_read_taken htaken h.not_atEnd he,
      List.append_assoc]
  · intro hend
    rw [hdrop] at hend ⊢
    rw [hread, hfollowing, resume_eq_of_atEnd hend, read_of_atEnd hend]
    simp [Outline.after]
  · intro hend
    obtain ⟨p, hp, hresume⟩ := resume_eq_drop hend
    rw [hdrop, ← hfollowing] at hresume
    exact ⟨p, hp, hresume, by rw [hread, hresume]⟩

/-- In `print ; x ;` the offending token is a semicolon. Nothing but this one is skipped. -/
theorem resumes_behind_offending_semicolon :
    ∃ (semicolon : Token) (ts : List Token) (p : Nat),
      ts = [⟨.keyword .printKw, "print", 1⟩, semicolon, ⟨.identifier, "x", 1⟩,
        ⟨.symbol .semicolon, ";", 1⟩] ∧
      (Stmt.read ts).rest = ts.drop 1 ∧ IsLeast {p | 1 < p ∧ ResumesAt ts p} p ∧
      read ts = (read (ts.drop p)).after [.error (.atToken semicolon .missingExpression)] := by
  let semicolon : Token := ⟨.symbol .semicolon, ";", 1⟩
  let ts : List Token := [⟨.keyword .printKw, "print", 1⟩, semicolon, ⟨.identifier, "x", 1⟩,
    semicolon]
  have hstarts : Starts ts ts := .first (by decide)
  have herror : (Stmt.read ts).result = .error (.atToken semicolon .missingExpression) := by
    decide +kernel
  have hrest : (Stmt.read ts).rest = ts.drop 1 := by decide +kernel
  obtain ⟨j, before, hle, hj, -, hbefore, -, hresumes⟩ := resumes_at_first_place hstarts herror
  obtain rfl : j = 1 := by
    have hlength := congrArg List.length (hj.symm.trans hrest)
    simp only [List.length_drop] at hlength
    change j ≤ 4 at hle
    change 4 - j = 3 at hlength
    omega
  have hfront : (read (ts.take 1)).items = [.error .endOfInput] := by decide +kernel
  obtain rfl : before = [] := by
    rw [hfront, if_neg (by decide)] at hbefore
    exact List.append_cancel_right hbefore.symm
  obtain ⟨p, hp, -, hread⟩ := hresumes (by decide)
  exact ⟨semicolon, ts, p, rfl, hrest, hp, hread⟩

end Program

namespace Grammar

open Program

/-- Only keywords open declarations. -/
theorem not_opensDeclaration {t : Token} (h : ∀ k, t.kind ≠ .keyword k) :
    ¬opensDeclaration t := by
  unfold opensDeclaration
  split
  · rename_i k hk
    exact absurd hk (h k)
  · simp

theorem InExpression.not_opensDeclaration {t : Token} (h : InExpression t.kind) :
    ¬opensDeclaration t := by
  rcases h with ⟨s, -, ht⟩ | ht | ⟨v, hv⟩
  · exact Grammar.not_opensDeclaration (by simp [ht])
  · exact Grammar.not_opensDeclaration (by simp [ht])
  · unfold opensDeclaration
    generalize t.kind = k at hv ⊢
    cases hv <;> simp [Keyword.opensDeclaration]

namespace Declaration

theorem not_opensDeclaration_of_mem_tail (d : Declaration) :
    ∀ t ∈ d.tokens.tail, ¬opensDeclaration t := by
  have expression {p : Phrase} (e : Derivation p) : ∀ t ∈ e.tokens, ¬opensDeclaration t :=
    fun t ht => (e.inExpression t ht).not_opensDeclaration
  have symbol {s : Symbol} (t : Terminal (.symbol s)) : ¬opensDeclaration t.val :=
    not_opensDeclaration (by simp [t.property])
  have identifier (t : Terminal .identifier) : ¬opensDeclaration t.val :=
    not_opensDeclaration (by simp [t.property])
  have closed {ts : List Token} (h : ∀ t ∈ ts, ¬opensDeclaration t)
      (closing : Terminal (.symbol .semicolon)) : ∀ t ∈ ts ++ [closing.val], ¬opensDeclaration t :=
    List.forall_mem_append.2 ⟨h, List.forall_mem_singleton.2 (symbol closing)⟩
  cases d with
  | declare opening name colons type initial closing =>
    have hinitial : ∀ t ∈ initialTokens initial, ¬opensDeclaration t := by
      cases initial with
      | none => simp [initialTokens]
      | some i => exact List.forall_mem_cons.2 ⟨symbol i.1, expression i.2⟩
    exact List.forall_mem_cons.2 ⟨identifier name, List.forall_mem_cons.2 ⟨symbol colons,
      List.forall_mem_cons.2 ⟨identifier type, closed hinitial closing⟩⟩⟩
  | print opening e closing => exact closed (expression e) closing
  | expression e closing =>
    intro t ht
    exact closed (expression e) closing t (List.mem_of_mem_tail ht)

/-- A declaration is a chunk: one semicolon at its end, and nothing that opens another inside. -/
theorem exists_chunk (d : Declaration) : ∃ c : Chunk, c.tokens = d.tokens := by
  obtain ⟨body, closing, hd, hinner⟩ := d.exists_tokens_eq
  refine ⟨⟨body, closing, hinner, fun t ht => d.not_opensDeclaration_of_mem_tail t ?_⟩, hd.symm⟩
  rw [hd]
  cases body with
  | nil => cases ht
  | cons s body => exact List.mem_append_left _ ht

end Declaration

end Grammar

namespace Program

open Grammar

/-- What reading drops first, behind a failing statement, is the offending token. So a token that
opens a declaration begins no statement where it offends, and the declaration that begins there is
skipped to its end. -/
theorem offending_opener_is_skipped {ts us vs : List Token} {t : Token} {e : SyntaxError}
    (h : Starts ts us) (he : (Stmt.read us).result = .error e)
    (hrest : (Stmt.read us).rest = t :: vs) :
    ((us ≠ t :: vs ∧ opensDeclaration t → following (Stmt.read us) = t :: vs) ↔
      us = t :: vs ∨ ¬opensDeclaration t) ∧
    (opensDeclaration t → ∃ before, following (Stmt.read us) <:+ vs ∧
      (read ts).items = before ++ .error e :: (read (following (Stmt.read us))).items ∧
      ∀ (d : Declaration) (more : List Token), d.tokens ++ more = t :: vs →
        following (Stmt.read us) = more) := by
  have hfollowing : following (Stmt.read us) = resume (t :: vs) := by rw [following, he, hrest]
  have hsuffix (hopens : opensDeclaration t) : following (Stmt.read us) <:+ vs := by
    have ht : t.kind ≠ .endOfFile := by
      intro ht
      exact not_opensDeclaration (t := t) (by simp [ht]) hopens
    rw [hfollowing, resume, if_neg ht]
    exact resumeAfter_suffix t vs
  constructor
  · constructor
    · intro hkeeps
      by_contra hnot
      rw [not_or, not_not] at hnot
      have hle := (hsuffix hnot.2).length_le
      rw [hkeeps hnot] at hle
      exact absurd hle (by simp)
    · rintro (hus | hopens) ⟨hne, hopens'⟩
      · exact absurd hus hne
      · exact absurd hopens' hopens
  · intro hopens
    obtain ⟨before, hitems⟩ := h.items_eq
    refine ⟨before ++ (Stmt.read us).notes.map .error, hsuffix hopens, ?_, ?_⟩
    · rw [hitems, itemsOf, he]
      simp [Item.ofResult]
    · intro d more hd
      obtain ⟨c, hc⟩ := d.exists_chunk
      have hresume := c.resume_eq (List.nil_append c.body).symm more
      rw [hfollowing, ← hd, ← hc, Chunk.tokens, List.append_assoc]
      exact hresume

/-- In `print true var x :: number; x;` the declaration is skipped, and `x;` is read next. -/
theorem following_of_offending_var :
    ∃ (ts vs more : List Token) (t : Token) (d : Declaration),
      ts = [⟨.keyword .printKw, "print", 1⟩, ⟨.keyword .trueKw, "true", 1⟩] ++ t :: vs ∧
      opensDeclaration t ∧ d.tokens ++ more = t :: vs ∧ more ≠ [] ∧
      following (Stmt.read ts) = more := by
  let t : Token := ⟨.keyword .varKw, "var", 1⟩
  let more : List Token := [⟨.identifier, "x", 1⟩, ⟨.symbol .semicolon, ";", 1⟩]
  let d : Declaration := .declare ⟨t, rfl⟩ ⟨⟨.identifier, "x", 1⟩, rfl⟩
    ⟨⟨.symbol .doubleColon, "::", 1⟩, rfl⟩ ⟨⟨.identifier, "number", 1⟩, rfl⟩ none
    ⟨⟨.symbol .semicolon, ";", 1⟩, rfl⟩
  let vs : List Token := d.tokens.tail ++ more
  let ts : List Token := [⟨.keyword .printKw, "print", 1⟩, ⟨.keyword .trueKw, "true", 1⟩] ++ t :: vs
  have hstarts : Starts ts ts := .first (by decide)
  have herror : (Stmt.read ts).result = .error (.atToken t .unfinishedPrint) := by decide +kernel
  have hrest : (Stmt.read ts).rest = t :: vs := by decide +kernel
  obtain ⟨-, hskipped⟩ := offending_opener_is_skipped hstarts herror hrest
  obtain ⟨before, -, -, hfollowing⟩ := hskipped rfl
  exact ⟨ts, vs, more, t, d, rfl, rfl, rfl, by simp [more], hfollowing d more rfl⟩

/-- In `print true var x :: number;` the missing semicolon takes the declaration with it: the error
is at `var`, which could begin the next statement and does not. -/
theorem declaration_lost_without_semicolon :
    ∃ (ts us vs : List Token) (t : Token) (e : SyntaxError) (d : Declaration),
      ts = [⟨.keyword .printKw, "print", 1⟩, ⟨.keyword .trueKw, "true", 1⟩,
        ⟨.keyword .varKw, "var", 1⟩, ⟨.identifier, "x", 1⟩, ⟨.symbol .doubleColon, "::", 1⟩,
        ⟨.identifier, "number", 1⟩, ⟨.symbol .semicolon, ";", 1⟩, ⟨.endOfFile, "", 1⟩] ∧
      Starts ts us ∧ (Stmt.read us).result = .error e ∧ (Stmt.read us).rest = t :: vs ∧
      us ≠ t :: vs ∧ opensDeclaration t ∧ (d.IsProper ∧ d.tokens <+: t :: vs) ∧
      following (Stmt.read us) ≠ t :: vs ∧ (read ts).items = [.error e] := by
  let t : Token := ⟨.keyword .varKw, "var", 1⟩
  let d : Declaration := .declare ⟨t, rfl⟩ ⟨⟨.identifier, "x", 1⟩, rfl⟩
    ⟨⟨.symbol .doubleColon, "::", 1⟩, rfl⟩ ⟨⟨.identifier, "number", 1⟩, rfl⟩ none
    ⟨⟨.symbol .semicolon, ";", 1⟩, rfl⟩
  let vs : List Token := d.tokens.tail ++ [⟨.endOfFile, "", 1⟩]
  let ts : List Token := [⟨.keyword .printKw, "print", 1⟩, ⟨.keyword .trueKw, "true", 1⟩] ++ t :: vs
  have hstarts : Starts ts ts := .first (by decide)
  have herror : (Stmt.read ts).result = .error (.atToken t .unfinishedPrint) := by decide +kernel
  have hrest : (Stmt.read ts).rest = t :: vs := by decide +kernel
  have hfollowing : following (Stmt.read ts) ≠ t :: vs := by decide +kernel
  have hitems : (read ts).items = [.error (.atToken t .unfinishedPrint)] := by decide +kernel
  exact ⟨ts, ts, vs, t, _, d, rfl, hstarts, herror, hrest, by decide, rfl,
    ⟨trivial, ⟨_, rfl⟩⟩, hfollowing, hitems⟩

end Program

end TreeWalk

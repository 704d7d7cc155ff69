import Mathlib.Logic.Relation
import TreeWalk.Proofs.Lexis.Lines

/-! Layout between tokens. Whitespace before a token or an error, with more whitespace and comments
after it, changes nothing of what is scanned but the lines. -/
namespace TreeWalk

/-- Whitespace and complete comments. A comment to the end of its line is complete with its line
feed. -/
inductive IsLayout : List Char → Prop
  | nil : IsLayout []
  | blank {c : Char} {cs : List Char} (hc : c ∈ [' ', '\r', '\t', '\n']) (h : IsLayout cs) :
    IsLayout (c :: cs)
  | lineComment {body cs : List Char} (hbody : '\n' ∉ body) (h : IsLayout cs) :
    IsLayout ('/' :: '/' :: (body ++ '\n' :: cs))
  | blockComment {text cs : List Char} (ht : Segment.IsBlockComment text) (h : IsLayout cs) :
    IsLayout (text ++ cs)

/-- Layout that begins with whitespace. -/
def IsGap (gap : List Char) : Prop :=
  ∃ c cs, gap = c :: cs ∧ c ∈ [' ', '\r', '\t', '\n'] ∧ IsLayout cs

namespace Segment

/-- A segment that scanning passes over. -/
def IsSilent (s : Segment) : Prop := s.shape = .blank ∨ s.shape = .comment

/-- A text, and the same one with a gap more before one of its tokens or errors. -/
inductive Spaced : List Char → List Char → Prop
  | gap {cs gap : List Char} {front back : List Segment} {s : Segment}
    (h : Division cs (front ++ s :: back)) (hs : ¬s.IsSilent) (hgap : IsGap gap) :
    Spaced cs (front.flatMap text ++ (gap ++ (s.text ++ back.flatMap text)))

theorem scanned?_of_isSilent {s : Segment} (h : s.IsSilent) (line : Nat) :
    s.scanned? line = none := by
  rcases h with h | h <;> rw [scanned?, h]

theorem all_blank {c : Char} (hc : c ∈ [' ', '\r', '\t', '\n']) (cs : List Char) :
    all (c :: cs) = ⟨.blank, [c]⟩ :: all cs := by
  rw [all_cons, first, if_pos (isBlank_iff.2 hc)]

theorem all_lineComment {body : List Char} (hbody : '\n' ∉ body) (cs : List Char) :
    all ('/' :: '/' :: (body ++ '\n' :: cs)) =
      ⟨.comment, '/' :: '/' :: body⟩ :: all ('\n' :: cs) := by
  have hpass : ∀ d ∈ '/' :: body, decide (d ≠ '\n') = true := by
    refine List.forall_mem_cons.2 ⟨by decide, fun d hd => ?_⟩
    rw [decide_eq_true_eq]
    rintro rfl
    exact hbody hd
  obtain ⟨htake, hdrop⟩ := (span_of_forall (p := (· ≠ '\n')) hpass).2.2 cs (x := '\n') (by decide)
  have hfirst : first '/' ('/' :: (body ++ '\n' :: cs)) =
      (⟨.comment, '/' :: '/' :: body⟩, '\n' :: cs) := by
    show lineComment ('/' :: body ++ '\n' :: cs) = _
    rw [lineComment, htake, hdrop]
  rw [all_cons, hfirst]

theorem all_blockComment {comment : List Char} (h : IsBlockComment comment) (cs : List Char) :
    all (comment ++ cs) = ⟨.comment, comment⟩ :: all cs := by
  obtain ⟨body, rfl, -⟩ := id h
  obtain ⟨rest, hrest⟩ := exists_commentBody h (List.prefix_append body cs)
  obtain rfl : rest = cs := List.append_cancel_left (commentBody_append hrest)
  have hfirst : first '/' ('*' :: (body ++ rest)) = (⟨.comment, '/' :: '*' :: body⟩, rest) := by
    show blockComment (body ++ rest) = _
    rw [blockComment, hrest]
  rw [List.cons_append, List.cons_append, all_cons, hfirst]

/-- Layout is cut into segments that are passed over, whatever stands after it. -/
theorem all_layout {layout : List Char} (h : IsLayout layout) (cs : List Char) :
    ∃ ss, (∀ s ∈ ss, s.IsSilent) ∧ all (layout ++ cs) = ss ++ all cs := by
  induction h with
  | nil => exact ⟨[], by simp, rfl⟩
  | @blank c layout hc _ ih =>
    obtain ⟨ss, hss, hall⟩ := ih
    refine ⟨⟨.blank, [c]⟩ :: ss, List.forall_mem_cons.2 ⟨.inl rfl, hss⟩, ?_⟩
    rw [List.cons_append, all_blank hc, hall, List.cons_append]
  | @lineComment body layout hbody _ ih =>
    obtain ⟨ss, hss, hall⟩ := ih
    refine ⟨⟨.comment, '/' :: '/' :: body⟩ :: ⟨.blank, ['\n']⟩ :: ss,
      List.forall_mem_cons.2 ⟨.inr rfl, List.forall_mem_cons.2 ⟨.inl rfl, hss⟩⟩, ?_⟩
    simp only [List.cons_append, List.append_assoc]
    rw [all_lineComment hbody, all_blank (by simp), hall]
  | @blockComment comment layout ht _ ih =>
    obtain ⟨ss, hss, hall⟩ := ih
    refine ⟨⟨.comment, comment⟩ :: ss, List.forall_mem_cons.2 ⟨.inr rfl, hss⟩, ?_⟩
    rw [List.append_assoc, all_blockComment ht, hall, List.cons_append]

/-- Before a token or an error there is no comment that only a line feed ends. -/
theorem Division.not_isLineComment {cs : List Char} {front back : List Segment}
    {comment s : Segment} (h : Division cs (front ++ comment :: s :: back)) (hs : ¬s.IsSilent) :
    ¬comment.IsLineComment := by
  rintro ⟨body, hbody⟩
  obtain ⟨shape, text⟩ := comment
  obtain rfl : '/' :: '/' :: body = text := hbody
  have hcomment := h.isLongest
  have hnext : IsLongest (s.text ++ back.flatMap Segment.text) s := by
    rw [List.append_cons] at h
    exact h.isLongest
  generalize hrest : (s :: back).flatMap Segment.text = rest at hcomment
  have hsplit : s.text ++ back.flatMap Segment.text = rest := hrest
  rw [hsplit] at hnext
  -- As the longest comment at its place it ends before a line feed, and that would be a blank.
  have hfirst := hcomment.unique (@isLongest_lineComment (body ++ rest))
  have htake : body = (body ++ rest).takeWhile (· ≠ '\n') := by
    have htext := congrArg Segment.text hfirst
    simpa [lineComment] using htext
  have hdrop : (body ++ rest).dropWhile (· ≠ '\n') = rest := by
    have happend : (body ++ rest).takeWhile (· ≠ '\n') ++ (body ++ rest).dropWhile (· ≠ '\n') =
        body ++ rest := List.takeWhile_append_dropWhile
    rw [← htake] at happend
    exact List.append_cancel_left happend
  cases rest with
  | nil => exact hnext.1.ne_nil (List.append_eq_nil_iff.1 hsplit).1
  | cons c rest =>
    obtain rfl : c = '\n' := by
      have hhead := List.head?_dropWhile_not (· ≠ '\n') (body ++ c :: rest)
      rw [hdrop] at hhead
      simpa using hhead
    have hblank := hnext.unique (isLongest_blank (by decide))
    exact hs (.inl (congrArg Segment.shape hblank))

/-- What stands before a token or an error is cut in the same way before a blank. -/
theorem Division.all_append_blank {cs : List Char} {front back : List Segment} {s : Segment}
    (h : Division cs (front ++ s :: back)) (hs : ¬s.IsSilent) {x : Char} (hx : isBlank x)
    (ds : List Char) :
    all (front.flatMap text ++ x :: ds) = front ++ ⟨.blank, [x]⟩ :: all ds := by
  obtain ⟨hbefore, hclosed⟩ := h.before
  have hfront : all (front.flatMap text) = front := (division_all _).unique hbefore
  have hlast : ∀ init comment, all (front.flatMap text) = init ++ [comment] →
      ¬comment.IsLineComment := by
    intro init comment hinit
    rw [hfront] at hinit
    rw [hinit, List.append_assoc] at h
    exact h.not_isLineComment hs
  rw [Segment.all_append_blank hx (by rwa [hfront]) (.inr hlast), hfront]

/-- A gap adds segments that are passed over, and keeps the others. -/
theorem Spaced.exists_all {cs ds : List Char} (h : Spaced cs ds) :
    ∃ front gap back, all cs = front ++ back ∧ all ds = front ++ (gap ++ back) ∧
      ∀ s ∈ gap, s.IsSilent := by
  cases h with
  | @gap gap front back s h hs hgap =>
    obtain ⟨c, layout, rfl, hc, hlayout⟩ := hgap
    have hback : all (s.text ++ back.flatMap text) = s :: back :=
      (division_all _).unique h.after
    obtain ⟨ss, hss, hcut⟩ := all_layout hlayout (s.text ++ back.flatMap text)
    refine ⟨front, ⟨.blank, [c]⟩ :: ss, s :: back, (division_all cs).unique h, ?_,
      List.forall_mem_cons.2 ⟨.inl rfl, hss⟩⟩
    rw [List.cons_append, h.all_append_blank hs (isBlank_iff.2 hc), hcut, hback, List.cons_append]

end Segment

/-- The same token without its line. -/
def Token.unlined (t : Token) : Token := { t with line := 0 }

@[simp] theorem Token.kind_unlined (t : Token) : t.unlined.kind = t.kind := rfl

@[simp] theorem Token.lexeme_unlined (t : Token) : t.unlined.lexeme = t.lexeme := rfl

def LexicalError.unlined (e : LexicalError) : LexicalError := { e with line := 0 }

namespace Scanned

def unlined : Scanned → Scanned
  | token t => token t.unlined
  | error e => error e.unlined

theorem token?_unlined (s : Scanned) : s.unlined.token? = s.token?.map Token.unlined := by
  cases s <;> rfl

theorem error?_unlined (s : Scanned) :
    s.unlined.error? = s.error?.map LexicalError.unlined := by
  cases s <;> rfl

end Scanned

theorem Segment.unlined_scannedFrom (line : Nat) (ss : List Segment) :
    (scannedFrom line ss).map Scanned.unlined = ss.filterMap (scanned? 0) := by
  have hone (line : Nat) (s : Segment) : (s.scanned? line).map Scanned.unlined = s.scanned? 0 := by
    unfold scanned?
    cases s.shape <;> rfl
  induction ss generalizing line with
  | nil => rfl
  | cons s ss ih =>
    rw [scannedFrom, List.map_append, ih, List.filterMap_cons, ← hone line s]
    cases s.scanned? line <;> rfl

theorem Segment.filterMap_scanned?_of_spaced {cs ds : List Char}
    (h : Relation.ReflTransGen Spaced cs ds) :
    (all ds).filterMap (scanned? 0) = (all cs).filterMap (scanned? 0) := by
  induction h with
  | refl => rfl
  | tail _ hspaced ih =>
    obtain ⟨front, gap, back, hall, hall', hgap⟩ := hspaced.exists_all
    have hsilent : gap.filterMap (scanned? 0) = [] :=
      List.filterMap_eq_nil_iff.2 fun s hs => scanned?_of_isSilent (hgap s hs) 0
    rw [← ih, hall, hall', List.filterMap_append, List.filterMap_append, hsilent,
      List.nil_append, List.filterMap_append]

/-- Gaps before tokens and errors change nothing of a source but lines. -/
theorem unlined_scanToEnd_of_spaced {source spaced : String}
    (h : Relation.ReflTransGen Segment.Spaced source.toList spaced.toList) :
    (scanToEnd spaced).map Scanned.unlined = (scanToEnd source).map Scanned.unlined := by
  rw [scanToEnd_eq, scanToEnd_eq, List.map_append, List.map_append, scan_eq, scan_eq,
    Segment.unlined_scannedFrom, Segment.unlined_scannedFrom,
    Segment.filterMap_scanned?_of_spaced h]
  rfl

theorem unlined_tokensOf_of_spaced {source spaced : String}
    (h : Relation.ReflTransGen Segment.Spaced source.toList spaced.toList) :
    (tokensOf spaced).map Token.unlined = (tokensOf source).map Token.unlined := by
  rw [tokensOf, tokensOf, ← Scanned.filterMap_map Scanned.token?_unlined,
    ← Scanned.filterMap_map Scanned.token?_unlined, unlined_scanToEnd_of_spaced h]

theorem unlined_lexicalErrorsOf_of_spaced {source spaced : String}
    (h : Relation.ReflTransGen Segment.Spaced source.toList spaced.toList) :
    (lexicalErrorsOf spaced).map LexicalError.unlined =
      (lexicalErrorsOf source).map LexicalError.unlined := by
  rw [lexicalErrorsOf, lexicalErrorsOf, ← Scanned.filterMap_map Scanned.error?_unlined,
    ← Scanned.filterMap_map Scanned.error?_unlined, unlined_scanToEnd_of_spaced h]

end TreeWalk

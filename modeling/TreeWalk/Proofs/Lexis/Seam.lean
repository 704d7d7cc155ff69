import TreeWalk.Proofs.Lexis.LongestMatch

/-! Texts one after the other. Where the first leaves nothing open, and the second begins with a
blank or with another character that nothing goes on with, each is cut into segments as if it stood
alone. Sources joined by a line feed are scanned as each of them is, but for the lines of the
second. -/
namespace TreeWalk

/-- The same token, further down. -/
def Token.later (n : Nat) (t : Token) : Token := { t with line := t.line + n }

@[simp] theorem Token.kind_later (n : Nat) (t : Token) : (t.later n).kind = t.kind := rfl

@[simp] theorem Token.lexeme_later (n : Nat) (t : Token) : (t.later n).lexeme = t.lexeme := rfl

def Scanned.later (n : Nat) : Scanned → Scanned
  | token t => token (t.later n)
  | error e => error { e with line := e.line + n }

/-- A string or a comment never ends. -/
def LexicalError.IsUnterminated (e : LexicalError) : Prop :=
  e.cause = .unterminatedString ∨ e.cause = .unterminatedComment

namespace Segment

/-- A character that no name, number or mark goes on with, whatever it is that stands before. -/
def IsStop (x : Char) : Prop := continuesName x = false ∧ x ∉ ['.', ':', '=', '/', '*']

instance (x : Char) : Decidable (IsStop x) := inferInstanceAs (Decidable (_ ∧ _))

/-- No string and no comment is left open. -/
def IsClosed (s : Segment) : Prop := s.shape ≠ .openString ∧ s.shape ≠ .openComment

theorem span_append_of_dropWhile_eq_cons {p : Char → Bool} {x : Char} {cs rest : List Char}
    (h : cs.dropWhile p = x :: rest) (ds : List Char) :
    (cs ++ ds).takeWhile p = cs.takeWhile p ∧ (cs ++ ds).dropWhile p = x :: (rest ++ ds) := by
  induction cs with
  | nil => cases h
  | cons c cs ih =>
    rw [List.dropWhile_cons] at h
    rw [List.cons_append, List.takeWhile_cons, List.takeWhile_cons, List.dropWhile_cons]
    split at h
    · rename_i hc
      obtain ⟨htake, hdrop⟩ := ih h
      simp only [if_pos hc, htake, hdrop, and_self]
    · rename_i hc
      obtain ⟨rfl, rfl⟩ := List.cons.inj h
      simp only [if_neg hc, and_self]

theorem isStop_of_isBlank {x : Char} (hx : isBlank x) : IsStop x := by
  rw [isBlank_iff] at hx
  simp only [List.mem_cons, List.not_mem_nil, or_false] at hx
  rcases hx with rfl | rfl | rfl | rfl <;> decide

theorem IsStop.isDigit {x : Char} (hx : IsStop x) : x.isDigit = false :=
  (Bool.or_eq_false_iff.1 hx.1).2

theorem IsStop.double? {x : Char} (hx : IsStop x) (c : Char) : Symbol.double? c x = none := by
  unfold Symbol.double?
  split <;> first | exact absurd hx (by decide) | rfl

theorem fraction_append_stop {x : Char} (hx : IsStop x) (cs ds : List Char) :
    fraction (cs ++ x :: ds) = ((fraction cs).1, (fraction cs).2 ++ x :: ds) := by
  have hdigit := hx.isDigit
  rcases cs with _ | ⟨point, _ | ⟨d, cs⟩⟩
  · have hpoint : x ≠ '.' := by
      rintro rfl
      exact absurd hx (by decide)
    cases ds with
    | nil => rfl
    | cons d ds => simp [fraction, hpoint]
  · have hplaces : ¬(point = '.' ∧ x.isDigit = true) := by simp [hdigit]
    simp only [fraction, List.cons_append, List.nil_append, if_neg hplaces]
  · simp only [fraction, List.cons_append]
    split
    · simp only [takeWhile_append_stop hdigit, dropWhile_append_stop hdigit]
    · rfl

theorem commentBody_append_some {n : Nat} {cs body rest : List Char} (ds : List Char)
    (h : commentBody n cs = some (body, rest)) :
    commentBody n (cs ++ ds) = some (body, rest ++ ds) := by
  fun_induction commentBody n cs generalizing body rest with
  | case1 => cases h
  | case2 => cases h
  | case3 n c d cs hc ih =>
    obtain ⟨⟨b, r⟩, hb, heq⟩ := Option.map_eq_some_iff.1 h
    cases heq
    simp only [List.cons_append, commentBody, if_pos hc, ih hb, Option.map_some]
  | case4 c d cs ho hc =>
    cases h
    simp only [List.cons_append, commentBody, if_neg ho, if_pos hc]
  | case5 c d cs ho hc n ih =>
    obtain ⟨⟨b, r⟩, hb, heq⟩ := Option.map_eq_some_iff.1 h
    cases heq
    simp only [List.cons_append, commentBody, if_neg ho, if_pos hc, ih hb, Option.map_some]
  | case6 n c d cs ho hc ih =>
    obtain ⟨⟨b, r⟩, hb, heq⟩ := Option.map_eq_some_iff.1 h
    cases heq
    have hrest := ih hb
    rw [List.cons_append] at hrest
    simp only [List.cons_append, commentBody, if_neg ho, if_neg hc, hrest, Option.map_some]

theorem word_append_stop {x : Char} (hx : IsStop x) (c : Char) (cs ds : List Char) :
    word c (cs ++ x :: ds) = ((word c cs).1, (word c cs).2 ++ x :: ds) := by
  have hstop := hx.1
  simp only [word, takeWhile_append_stop hstop, dropWhile_append_stop hstop]

theorem number_append_stop {x : Char} (hx : IsStop x) (c : Char) (cs ds : List Char) :
    number c (cs ++ x :: ds) = ((number c cs).1, (number c cs).2 ++ x :: ds) := by
  have hstop := hx.isDigit
  simp only [number, takeWhile_append_stop hstop, dropWhile_append_stop hstop,
    fraction_append_stop hx]

/-- A comment to the end of its line ends at the line feed in it or after it. -/
theorem lineComment_append {x : Char} {cs : List Char} (h : x = '\n' ∨ (lineComment cs).2 ≠ [])
    (ds : List Char) :
    lineComment (cs ++ x :: ds) = ((lineComment cs).1, (lineComment cs).2 ++ x :: ds) := by
  rcases h with rfl | h
  · have hstop : decide ('\n' ≠ '\n') = false := by decide
    simp only [lineComment, takeWhile_append_stop (p := (· ≠ '\n')) hstop,
      dropWhile_append_stop (p := (· ≠ '\n')) hstop]
  · obtain ⟨y, rest, hdrop⟩ := List.exists_cons_of_ne_nil h
    have hcs : cs.dropWhile (· ≠ '\n') = y :: rest := hdrop
    obtain ⟨htake, hdropped⟩ :=
      span_append_of_dropWhile_eq_cons (p := (· ≠ '\n')) hcs (x :: ds)
    simp only [lineComment, htake, hdropped, hcs, List.cons_append]

theorem quoted_append_of_isClosed {cs : List Char} (h : (quoted cs).1.IsClosed) (ds : List Char) :
    quoted (cs ++ ds) = ((quoted cs).1, (quoted cs).2 ++ ds) := by
  cases hdrop : cs.dropWhile (· ≠ '"') with
  | nil =>
    rw [quoted, hdrop] at h
    exact absurd rfl h.1
  | cons quote rest =>
    obtain ⟨htake, hdropped⟩ := span_append_of_dropWhile_eq_cons (p := (· ≠ '"')) hdrop ds
    simp only [quoted, htake, hdropped, hdrop]

theorem blockComment_append_of_isClosed {cs : List Char} (h : (blockComment cs).1.IsClosed)
    (ds : List Char) :
    blockComment (cs ++ ds) = ((blockComment cs).1, (blockComment cs).2 ++ ds) := by
  cases hc : commentBody 0 cs with
  | none =>
    rw [blockComment, hc] at h
    exact absurd rfl h.2
  | some p =>
    obtain ⟨body, rest⟩ := p
    simp only [blockComment, hc, commentBody_append_some ds hc]

theorem mark_append_stop {x : Char} (hx : IsStop x) (c : Char) (cs ds : List Char) :
    mark c (cs ++ x :: ds) = ((mark c cs).1, (mark c cs).2 ++ x :: ds) := by
  cases cs with
  | nil =>
    simp only [mark, List.nil_append, List.head?_cons, List.head?_nil, Option.bind_some,
      Option.bind_none, hx.double? c]
    cases Symbol.single? c <;> rfl
  | cons d cs =>
    simp only [mark, List.cons_append, List.head?_cons, Option.bind_some]
    cases Symbol.double? c d with
    | some s => rfl
    | none => cases Symbol.single? c <;> rfl

theorem head?_append_cons {x y : Char} (hy : y ≠ x) (cs ds : List Char) :
    (cs ++ x :: ds).head? = some y ↔ cs.head? = some y := by
  cases cs with
  | nil => simpa using hy.symm
  | cons c cs => rfl

/-- A comment that runs to the end of its line, as its delimiter shows. -/
def IsLineComment (s : Segment) : Prop := ['/', '/'] <+: s.text

/-- A segment that leaves nothing open ends before a stop after the text, save for a comment that
only a line feed ends. -/
theorem first_append_stop {x : Char} (hx : IsStop x) {c : Char} {cs : List Char}
    (h : (first c cs).1.IsClosed)
    (hline : x = '\n' ∨ (first c cs).2 ≠ [] ∨ ¬(first c cs).1.IsLineComment) (ds : List Char) :
    first c (cs ++ x :: ds) = ((first c cs).1, (first c cs).2 ++ x :: ds) := by
  have hslash : '/' ≠ x := by
    rintro rfl
    exact absurd hx (by decide)
  have hstar : '*' ≠ x := by
    rintro rfl
    exact absurd hx (by decide)
  unfold first at h hline ⊢
  simp only [head?_append_cons hslash, head?_append_cons hstar]
  by_cases hb : isBlank c
  · simp only [if_pos hb]
  simp only [if_neg hb] at h hline ⊢
  by_cases hn : startsName c
  · simp only [if_pos hn, word_append_stop hx]
  simp only [if_neg hn] at h hline ⊢
  by_cases hd : c.isDigit
  · simp only [if_pos hd, number_append_stop hx]
  simp only [if_neg hd] at h hline ⊢
  by_cases hq : c = '"'
  · simp only [if_pos hq] at h ⊢
    exact quoted_append_of_isClosed h _
  simp only [if_neg hq] at h hline ⊢
  by_cases hl : c = '/' ∧ cs.head? = some '/'
  · simp only [if_pos hl] at hline ⊢
    obtain ⟨rest, rfl⟩ := List.head?_eq_some_iff.1 hl.2
    have hcomment : (lineComment ('/' :: rest)).1.IsLineComment := by
      simp [IsLineComment, lineComment]
    rcases hline with rfl | hrest | hnot
    · exact lineComment_append (.inl rfl) ds
    · exact lineComment_append (.inr hrest) ds
    · exact absurd hcomment hnot
  simp only [if_neg hl] at h ⊢
  by_cases hs : c = '/' ∧ cs.head? = some '*'
  · simp only [if_pos hs] at h ⊢
    obtain ⟨rest, rfl⟩ := List.head?_eq_some_iff.1 hs.2
    exact blockComment_append_of_isClosed h _
  simp only [if_neg hs, mark_append_stop hx]

/-- Cutting a text that leaves nothing open stops there, and begins again with what comes next. -/
theorem all_append_stop {x : Char} (hx : IsStop x) {cs : List Char}
    (h : ∀ s ∈ all cs, s.IsClosed)
    (hline : x = '\n' ∨ ∀ front s, all cs = front ++ [s] → ¬s.IsLineComment) (ds : List Char) :
    all (cs ++ x :: ds) = all cs ++ all (x :: ds) := by
  fun_induction all cs with
  | case1 => rfl
  | case2 c cs ih =>
    obtain ⟨hfirst, hrest⟩ := List.forall_mem_cons.1 h
    have hends : x = '\n' ∨ (first c cs).2 ≠ [] ∨ ¬(first c cs).1.IsLineComment := by
      refine hline.imp_right fun hlast => ?_
      by_cases hnil : (first c cs).2 = []
      · exact .inr (hlast [] _ (by rw [hnil, all_nil, List.nil_append]))
      · exact .inl hnil
    have htail := ih hrest <| hline.imp_right fun hlast front s hs =>
      hlast ((first c cs).1 :: front) s (by rw [hs, List.cons_append])
    rw [List.cons_append, all_cons, first_append_stop hx hfirst hends, htail, List.cons_append]

theorem all_append_blank {x : Char} (hx : isBlank x) {cs : List Char}
    (h : ∀ s ∈ all cs, s.IsClosed)
    (hline : x = '\n' ∨ ∀ front s, all cs = front ++ [s] → ¬s.IsLineComment) (ds : List Char) :
    all (cs ++ x :: ds) = all cs ++ ⟨.blank, [x]⟩ :: all ds := by
  rw [all_append_stop (isStop_of_isBlank hx) h hline, all_cons, first, if_pos hx]

/-- Cutting a text that leaves nothing open stops at a line feed after it. -/
theorem all_append_line {cs : List Char} (h : ∀ s ∈ all cs, s.IsClosed) (ds : List Char) :
    all (cs ++ '\n' :: ds) = all cs ++ ⟨.blank, ['\n']⟩ :: all ds :=
  all_append_blank (by decide) h (.inl rfl) ds

theorem scanned?_later (line n : Nat) (s : Segment) :
    s.scanned? (line + n) = (s.scanned? line).map (Scanned.later n) := by
  unfold scanned?
  cases s.shape <;> rfl

/-- Segments that begin further down are scanned as the same tokens and errors, further down. -/
theorem scannedFrom_later (line n : Nat) (ss : List Segment) :
    scannedFrom (line + n) ss = (scannedFrom line ss).map (Scanned.later n) := by
  induction ss generalizing line with
  | nil => rfl
  | cons s ss ih =>
    have hline : line + n + lineFeeds s.text = line + lineFeeds s.text + n := by omega
    rw [scannedFrom, scannedFrom, hline, ih, scanned?_later, List.map_append]
    cases s.scanned? line <;> rfl

/-- What is left open is reported. -/
theorem isClosed_of_terminated {line : Nat} {ss : List Segment}
    (h : ∀ e ∈ (scannedFrom line ss).filterMap Scanned.error?, ¬e.IsUnterminated) :
    ∀ s ∈ ss, s.IsClosed := by
  induction ss generalizing line with
  | nil => simp
  | cons s ss ih =>
    rw [scannedFrom, List.filterMap_append, List.forall_mem_append] at h
    refine List.forall_mem_cons.2 ⟨?_, ih h.2⟩
    constructor
    · intro hopen
      apply h.1 ⟨line, .unterminatedString⟩
      · simp [scanned?, hopen, Scanned.error?]
      · exact .inl rfl
    · intro hopen
      apply h.1 ⟨line, .unterminatedComment⟩
      · simp [scanned?, hopen, Scanned.error?]
      · exact .inr rfl

theorem Candidate.ne_endOfFile {cs : List Char} {s : Segment} (h : Candidate cs s) :
    s.shape ≠ .token .endOfFile := by
  cases h with
  | spelled h hp =>
    intro heq
    rw [heq] at h
    cases h
  | _ => simp

theorem Division.ne_endOfFile {cs : List Char} {ss : List Segment} (h : Division cs ss) :
    ∀ s ∈ ss, s.shape ≠ .token .endOfFile := by
  induction h with
  | nil => simp
  | cons hs hrest ih => exact List.forall_mem_cons.2 ⟨hs.1.ne_endOfFile, ih⟩

theorem kind_ne_endOfFile {line : Nat} {ss : List Segment}
    (h : ∀ s ∈ ss, s.shape ≠ .token .endOfFile) :
    ∀ t ∈ (scannedFrom line ss).filterMap Scanned.token?, t.kind ≠ .endOfFile := by
  induction ss generalizing line with
  | nil => simp
  | cons s ss ih =>
    obtain ⟨hs, hss⟩ := List.forall_mem_cons.1 h
    rw [scannedFrom, List.filterMap_append]
    refine List.forall_mem_append.2 ⟨?_, ih hss⟩
    intro t ht hkind
    cases hshape : s.shape with
    | token kind =>
      simp only [scanned?, hshape, Option.toList_some, List.filterMap_cons, Scanned.token?,
        List.filterMap_nil, List.mem_singleton] at ht
      subst ht
      exact hs (hshape.trans (congrArg Shape.token hkind))
    | _ => simp [scanned?, hshape, Scanned.token?] at ht

end Segment

/-- The tokens of a source without the marker of its end. -/
def innerTokensOf (source : String) : List Token := (scan source).filterMap Scanned.token?

theorem tokensOf_eq (source : String) :
    tokensOf source = innerTokensOf source ++ [endToken source] := by
  rw [tokensOf, scanToEnd_eq, List.filterMap_append]
  rfl

theorem lexicalErrorsOf_eq (source : String) :
    lexicalErrorsOf source = (scan source).filterMap Scanned.error? := by
  rw [lexicalErrorsOf, scanToEnd_eq, List.filterMap_append]
  exact List.append_nil _

theorem innerTokensOf_ne_endOfFile (source : String) :
    ∀ t ∈ innerTokensOf source, t.kind ≠ .endOfFile := by
  rw [innerTokensOf, scan_eq]
  exact Segment.kind_ne_endOfFile (Segment.division_all source.toList).ne_endOfFile

/-- The lines that a source takes up before another one can follow it. -/
def linesOf (source : String) : Nat := lineFeeds source.toList + 1

theorem scan_join {source : String} (h : ∀ e ∈ lexicalErrorsOf source, ¬e.IsUnterminated)
    (next : String) :
    scan (source ++ "\n" ++ next) =
      scan source ++ (scan next).map (Scanned.later (linesOf source)) := by
  rw [lexicalErrorsOf_eq, scan_eq] at h
  have htext : (source ++ "\n" ++ next).toList = source.toList ++ '\n' :: next.toList := by simp
  have hline : 1 + lineFeeds source.toList + lineFeeds ['\n'] = 1 + linesOf source := by
    rw [linesOf, lineFeeds_cons, lineFeeds_nil, if_pos rfl]
    omega
  rw [scan_eq, htext, Segment.all_append_line (Segment.isClosed_of_terminated h),
    Segment.scannedFrom_append, Segment.flatMap_text_all, Segment.scannedFrom, hline,
    Segment.scannedFrom_later, scan_eq, scan_eq]
  rfl

theorem endToken_join (source next : String) :
    endToken (source ++ "\n" ++ next) = (endToken next).later (linesOf source) := by
  have hlines : lineFeeds (source ++ "\n" ++ next).toList =
      lineFeeds next.toList + linesOf source := by
    have hline : lineFeeds "\n".toList = 1 := rfl
    simp only [String.toList_append, lineFeeds_append, linesOf]
    omega
  rw [endToken_eq, hlines, endToken_eq, Token.later, Nat.add_assoc]

/-- What is picked out of changed items is what is picked out of the items, changed. -/
theorem Scanned.filterMap_map {α : Type} {change : Scanned → Scanned} {pick : Scanned → Option α}
    {change' : α → α} (h : ∀ s, pick (change s) = (pick s).map change') (ss : List Scanned) :
    (ss.map change).filterMap pick = (ss.filterMap pick).map change' := by
  rw [List.filterMap_map, List.map_filterMap]
  exact congrArg (ss.filterMap ·) (funext h)

theorem filterMap_token?_later (n : Nat) (ss : List Scanned) :
    (ss.map (Scanned.later n)).filterMap Scanned.token? =
      (ss.filterMap Scanned.token?).map (Token.later n) :=
  Scanned.filterMap_map (fun s => by cases s <;> rfl) ss

theorem tokensOf_join {source : String} (h : lexicalErrorsOf source = []) (next : String) :
    tokensOf (source ++ "\n" ++ next) =
      innerTokensOf source ++ (tokensOf next).map (Token.later (linesOf source)) := by
  rw [tokensOf_eq, innerTokensOf, scan_join (by simp [h]), List.filterMap_append,
    filterMap_token?_later, endToken_join, tokensOf_eq next, List.map_append, List.append_assoc]
  rfl

theorem lexicalErrorsOf_join {source next : String} (h : lexicalErrorsOf source = [])
    (hnext : lexicalErrorsOf next = []) : lexicalErrorsOf (source ++ "\n" ++ next) = [] := by
  have hscan : scan (source ++ "\n" ++ next) = _ := scan_join (by simp [h]) next
  rw [lexicalErrorsOf_eq] at h hnext ⊢
  rw [hscan, List.filterMap_append, h, List.nil_append, List.filterMap_eq_nil_iff]
  intro s hs
  obtain ⟨s, hmem, rfl⟩ := List.mem_map.1 hs
  have hnone := List.filterMap_eq_nil_iff.1 hnext s hmem
  cases s with
  | token t => rfl
  | error e => cases hnone

/-- Two sources with a line feed between them are scanned as each of them is, if the first leaves no
string and no comment open. The end of the first is then no end, and all that comes from the second
stands as many lines further down as there are line feeds before it. -/
theorem scanToEnd_across_line {source : String}
    (h : ∀ e ∈ lexicalErrorsOf source, ¬e.IsUnterminated) (next : String) :
    scanToEnd (source ++ "\n" ++ next) =
      (scanToEnd source).dropLast ++
        (scanToEnd next).map (Scanned.later (1 + lineFeeds source.toList)) := by
  have hlines : 1 + lineFeeds source.toList = linesOf source := Nat.add_comm _ _
  have hdrop : (scanToEnd source).dropLast = scan source := List.dropLast_concat
  rw [hlines, hdrop, scanToEnd_eq, scan_join h, endToken_join, List.append_assoc, scanToEnd_eq,
    List.map_append]
  rfl

/-- The first of two sources ends in a comment and the second is a string that never ends. -/
theorem scanToEnd_across_line_comment :
    (∀ e ∈ lexicalErrorsOf "@ x // y", ¬e.IsUnterminated) ∧
    scanToEnd "@ x // y" = [.error ⟨1, .unexpectedCharacter '@'⟩, .token ⟨.identifier, "x", 1⟩,
      .token ⟨.endOfFile, "", 1⟩] ∧
    scanToEnd "@ x // y\n\"z" = [.error ⟨1, .unexpectedCharacter '@'⟩,
      .token ⟨.identifier, "x", 1⟩, .error ⟨2, .unterminatedString⟩, .token ⟨.endOfFile, "", 2⟩] := by
  have hsource : scanToEnd "@ x // y" = [.error ⟨1, .unexpectedCharacter '@'⟩,
      .token ⟨.identifier, "x", 1⟩, .token ⟨.endOfFile, "", 1⟩] := by decide +kernel
  have hnext : scanToEnd "\"z" = [.error ⟨1, .unterminatedString⟩, .token ⟨.endOfFile, "", 1⟩] := by
    decide +kernel
  have herrors : ∀ e ∈ lexicalErrorsOf "@ x // y", ¬e.IsUnterminated := by
    rw [lexicalErrorsOf, hsource]
    simp [Scanned.error?, LexicalError.IsUnterminated]
  have hjoined := scanToEnd_across_line herrors "\"z"
  rw [hsource, hnext] at hjoined
  exact ⟨herrors, hsource, hjoined⟩

end TreeWalk

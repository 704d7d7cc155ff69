import TreeWalk.Proofs.Lexis.Seam

/-! The lines of tokens and errors. What is scanned stands on the line after all line feeds before
it, wherever these are: between tokens, in comments or in strings. -/
namespace TreeWalk

namespace Segment

theorem Candidate.of_append {cs ds : List Char} {s : Segment} (h : Candidate (cs ++ ds) s)
    (hs : s.IsClosed) (hp : s.text <+: cs) : Candidate cs s := by
  have happend : cs <+: cs ++ ds := List.prefix_append cs ds
  generalize hwhole : cs ++ ds = whole at h happend
  cases h with
  | spelled h _ => exact .spelled h hp
  | openString => exact absurd rfl hs.1
  | openComment => exact absurd rfl hs.2
  | rejected hcs hq h =>
    obtain ⟨rest, hrest⟩ := hp
    exact .rejected hrest.symm hq fun shape text htext => h shape text (htext.trans happend)

/-- What is the longest in a text is so in a part of it, where nothing is left open. -/
theorem IsLongest.of_append {cs ds : List Char} {s : Segment} (h : IsLongest (cs ++ ds) s)
    (hs : s.IsClosed) (hp : s.text <+: cs) : IsLongest cs s := by
  have happend : cs <+: cs ++ ds := List.prefix_append cs ds
  have hcandidate := h.1.of_append hs hp
  refine ⟨hcandidate, fun s' hs' => ?_⟩
  cases hs' with
  | spelled hspelled hp' => exact h.2 _ (.spelled hspelled (hp'.trans happend))
  | @openString content hcs hnone =>
    -- A closed segment that begins with a quote has another one, and the text has none.
    cases hcandidate with
    | @spelled s hspelled _ =>
      obtain ⟨c, text, htext⟩ := List.exists_cons_of_ne_nil hspelled.ne_nil
      rw [htext, hcs] at hp
      obtain ⟨rfl, hcontent⟩ := List.cons_prefix_cons.1 hp
      obtain ⟨inner, rfl, -⟩ := hspelled.fitsHead htext
      have hquote : '"' ∈ inner ++ ['"'] := by simp
      exact absurd (hcontent.subset hquote) hnone
    | openString => exact absurd rfl hs.1
    | openComment => exact absurd rfl hs.2
    | rejected hcs' hq => exact absurd (List.cons.inj (hcs'.symm.trans hcs)).1 hq
  | @openComment body hcs hopen =>
    by_cases hblock : ∃ text, text <+: cs ++ ds ∧ IsBlockComment text
    · obtain ⟨text, htext, hcomment⟩ := hblock
      have hle := h.2 ⟨.comment, text⟩ (.spelled (.blockComment hcomment) htext)
      have hshort : text.length ≤ cs.length := Nat.le_trans hle hp.length_le
      have hprefix := List.prefix_of_prefix_length_le htext happend hshort
      exact absurd hcomment (hopen text hprefix)
    · have hnone : ∀ text, text <+: cs ++ ds → ¬IsBlockComment text :=
        fun text htext hcomment => hblock ⟨text, htext, hcomment⟩
      have hle := h.2 ⟨.openComment, cs ++ ds⟩
        (.openComment (by rw [hcs, List.cons_append, List.cons_append]) hnone)
      exact Nat.le_trans happend.length_le hle
  | rejected => exact List.length_pos_iff.2 hcandidate.ne_nil

/-- What is left open takes all the rest. -/
theorem Candidate.isClosed {rest : List Char} {s : Segment} (h : Candidate (s.text ++ rest) s)
    (hrest : rest ≠ []) : s.IsClosed := by
  generalize hcs : s.text ++ rest = cs at h
  cases h with
  | @spelled s h hp => constructor <;> intro hopen <;> rw [hopen] at h <;> cases h
  | openString => exact absurd (List.append_right_eq_self.1 hcs) hrest
  | openComment => exact absurd (List.append_right_eq_self.1 hcs) hrest
  | rejected => constructor <;> intro hopen <;> cases hopen

theorem Division.flatMap_text {cs : List Char} {ss : List Segment} (h : Division cs ss) :
    ss.flatMap text = cs := by
  rw [h.unique (division_all cs), flatMap_text_all]

/-- A text is cut up to one of its segments as what stands before that segment is. -/
theorem Division.before {cs : List Char} {ss after : List Segment} {s : Segment}
    (h : Division cs (ss ++ s :: after)) :
    Division (ss.flatMap text) ss ∧ ∀ s ∈ ss, s.IsClosed := by
  induction ss generalizing cs with
  | nil => exact ⟨.nil, by simp⟩
  | cons first ss ih =>
    generalize hall : first :: ss ++ s :: after = all at h
    cases h with
    | nil => cases hall
    | @cons _ rest _ hfirst hrest =>
      obtain ⟨rfl, rfl⟩ := List.cons.inj hall
      have htail : Division rest (ss ++ s :: after) := hrest
      obtain ⟨hss, hclosed⟩ := ih htail
      have hsplit : ss.flatMap text ++ (s :: after).flatMap text = rest := by
        rw [← htail.flatMap_text, List.flatMap_append]
      have hne : rest ≠ [] := by
        intro hnil
        rw [hnil, List.append_eq_nil_iff, List.flatMap_cons, List.append_eq_nil_iff] at hsplit
        exact htail.text_ne_nil s (by simp) hsplit.2.1
      have hfirstClosed := hfirst.1.isClosed hne
      rw [← hsplit, ← List.append_assoc] at hfirst
      have hlongest := hfirst.of_append hfirstClosed (List.prefix_append _ _)
      rw [List.flatMap_cons]
      exact ⟨.cons hlongest hss, List.forall_mem_cons.2 ⟨hfirstClosed, hclosed⟩⟩

/-- What stands from one of the segments on is cut into that segment and those after it. -/
theorem Division.after {cs : List Char} {ss ts : List Segment} (h : Division cs (ss ++ ts)) :
    Division (ts.flatMap text) ts := by
  induction ss generalizing cs with
  | nil =>
    have hts : Division cs ts := h
    rwa [hts.flatMap_text]
  | cons first ss ih =>
    generalize hall : first :: ss ++ ts = all at h
    cases h with
    | nil => cases hall
    | cons hs hrest =>
      obtain ⟨rfl, rfl⟩ := List.cons.inj hall
      exact ih hrest

theorem Division.isLongest {cs : List Char} {ss after : List Segment} {s : Segment}
    (h : Division cs (ss ++ s :: after)) : IsLongest (s.text ++ after.flatMap text) s := by
  have hafter := h.after
  generalize htext : (s :: after).flatMap text = cs at hafter
  cases hafter with
  | cons hs hrest => rwa [hrest.flatMap_text]

/-- Each thing scanned comes from one segment, and what is before it from the segments before. -/
theorem exists_of_scannedFrom {line : Nat} {ss : List Segment} {before after : List Scanned}
    {item : Scanned} (h : scannedFrom line ss = before ++ item :: after) :
    ∃ front s back, ss = front ++ s :: back ∧ scannedFrom line front = before ∧
      s.scanned? (line + lineFeeds (front.flatMap text)) = some item := by
  induction ss generalizing line before with
  | nil => simp at h
  | cons s ss ih =>
    rw [scannedFrom] at h
    have hcases : (before = [] ∧ s.scanned? line = some item) ∨
        ∃ before', before = (s.scanned? line).toList ++ before' ∧
          scannedFrom (line + lineFeeds s.text) ss = before' ++ item :: after := by
      cases hs : s.scanned? line with
      | none => exact .inr ⟨before, rfl, by rwa [hs] at h⟩
      | some first =>
        rw [hs, Option.toList_some, List.singleton_append] at h
        cases before with
        | nil => exact .inl ⟨rfl, congrArg some (List.cons.inj h).1⟩
        | cons _ before =>
          obtain ⟨rfl, htail⟩ := List.cons.inj h
          exact .inr ⟨before, rfl, htail⟩
    rcases hcases with ⟨rfl, hs⟩ | ⟨before, rfl, htail⟩
    · exact ⟨[], s, ss, rfl, rfl, hs⟩
    · obtain ⟨front, s', back, rfl, rfl, hitem⟩ := ih htail
      refine ⟨s :: front, s', back, rfl, rfl, ?_⟩
      rwa [List.flatMap_cons, lineFeeds_append, ← Nat.add_assoc]

end Segment

namespace Scanned

def line : Scanned → Nat
  | token t => t.line
  | error e => e.line

/-- A token stands for its lexeme, and an error for the character that has no place in the language
or for what is left open, from its first delimiter on. -/
def StandsFor : Scanned → List Char → Prop
  | token t, text => t.lexeme.toList = text
  | error ⟨_, .unexpectedCharacter c⟩, text => text = [c]
  | error ⟨_, .unterminatedString⟩, text => ∃ content, text = '"' :: content ∧ '"' ∉ content
  | error ⟨_, .unterminatedComment⟩, text =>
    ∃ body, text = '/' :: '*' :: body ∧ ∀ front, front <+: text → ¬Segment.IsBlockComment front

end Scanned

theorem Segment.Candidate.standsFor {cs : List Char} {s : Segment} {line : Nat} {item : Scanned}
    (h : Candidate cs s) (hitem : s.scanned? line = some item) : item.StandsFor s.text := by
  cases h with
  | @spelled s hspelled hp =>
    obtain ⟨shape, text⟩ := s
    cases shape with
    | token kind =>
      cases hitem
      exact String.toList_ofList
    | _ => cases hspelled <;> cases hitem
  | @openString content hcs hnone =>
    cases hitem
    exact ⟨content, hcs, hnone⟩
  | @openComment body hcs hopen =>
    cases hitem
    exact ⟨body, hcs, hopen⟩
  | rejected =>
    cases hitem
    rfl

theorem Segment.line_of_scanned? {s : Segment} {line : Nat} {item : Scanned}
    (h : s.scanned? line = some item) : item.line = line := by
  obtain ⟨shape, text⟩ := s
  cases shape <;> cases h <;> rfl

/-- What is scanned stands on one of the lines of the source. -/
theorem line_le_of_mem_scanToEnd {source : String} {item : Scanned} (h : item ∈ scanToEnd source) :
    1 ≤ item.line ∧ item.line ≤ 1 + lineFeeds source.toList := by
  rw [scanToEnd_eq, scan_eq, endToken_eq] at h
  rcases List.mem_append.1 h with hscan | hend
  · obtain ⟨before, after, hsplit⟩ := List.append_of_mem hscan
    obtain ⟨front, s, back, hall, -, hitem⟩ := Segment.exists_of_scannedFrom hsplit
    have htext := congrArg lineFeeds (Segment.flatMap_text_all source.toList)
    rw [hall, List.flatMap_append, lineFeeds_append] at htext
    rw [Segment.line_of_scanned? hitem]
    omega
  · obtain rfl := List.mem_singleton.1 hend
    exact ⟨Nat.le_add_right 1 _, Nat.le_refl _⟩

/-- Every token and every error stands on the line after all line feeds before its own segment, and
what is scanned of the text before that segment is what was scanned before. The end of a source
stands on the line after all of its line feeds, whatever the source leaves open. -/
theorem scan_line_exact (source : String) :
    (∀ before item after, scan source = before ++ item :: after →
      ∃ front s back, Segment.Division source.toList (front ++ s :: back) ∧
        scan (String.ofList (front.flatMap Segment.text)) = before ∧
        item.StandsFor s.text ∧
        item.line = 1 + lineFeeds (front.flatMap Segment.text)) ∧
    scanToEnd source = scan source ++ [.token ⟨.endOfFile, "", 1 + lineFeeds source.toList⟩] := by
  refine ⟨?_, by rw [scanToEnd_eq, endToken_eq]⟩
  intro before item after h
  rw [scan_eq] at h
  have hdivision := Segment.division_all source.toList
  obtain ⟨front, s, back, hall, hbefore, hitem⟩ := Segment.exists_of_scannedFrom h
  rw [hall] at hdivision
  have hfront : Segment.all (front.flatMap Segment.text) = front :=
    (Segment.division_all _).unique hdivision.before.1
  refine ⟨front, s, back, hdivision, ?_, hdivision.isLongest.1.standsFor hitem,
    Segment.line_of_scanned? hitem⟩
  rw [scan_eq, String.toList_ofList, hfront, hbefore]

/-- A name below the line feed of a comment, and the end below another one. -/
theorem scan_line_below_comment :
    (∃ front s back, Segment.Division "/*\n*/x\n".toList (front ++ s :: back) ∧
      scan (String.ofList (front.flatMap Segment.text)) = [] ∧ s.text = ['x'] ∧
      2 = 1 + lineFeeds (front.flatMap Segment.text)) ∧
    scanToEnd "/*\n*/x\n" = [.token ⟨.identifier, "x", 2⟩, .token ⟨.endOfFile, "", 3⟩] := by
  have hscan : scan "/*\n*/x\n" = [.token ⟨.identifier, "x", 2⟩] := by decide +kernel
  obtain ⟨hitems, hend⟩ := scan_line_exact "/*\n*/x\n"
  obtain ⟨front, s, back, hdivision, hfront, hstands, hline⟩ := hitems [] _ [] hscan
  refine ⟨⟨front, s, back, hdivision, hfront, hstands.symm, hline⟩, ?_⟩
  rw [hend, hscan]
  rfl

end TreeWalk

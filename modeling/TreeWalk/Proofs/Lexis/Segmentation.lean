import TreeWalk.Text.Lines
import TreeWalk.Lexis.Scan

/-! A source text as the list of its segments, apart from the scanner that goes through it. The
texts of all segments together are the source. -/
namespace TreeWalk

namespace Segment

/-- From an opening quote to the next one. -/
def quoted (cs : List Char) : Segment × List Char :=
  let content := cs.takeWhile (· ≠ '"')
  match cs.dropWhile (· ≠ '"') with
  | [] => (⟨.openString, '"' :: content⟩, [])
  | quote :: rest =>
    (⟨.token (.string (String.ofList content)), '"' :: content ++ [quote]⟩, rest)

def lineComment (cs : List Char) : Segment × List Char :=
  (⟨.comment, '/' :: cs.takeWhile (· ≠ '\n')⟩, cs.dropWhile (· ≠ '\n'))

/-- Inside `depth + 1` block comments, what goes up to the end of the outermost one, and the rest.
Delimiters are taken from left to right and do not overlap. -/
def commentBody : (depth : Nat) → List Char → Option (List Char × List Char)
  | _, [] => none
  | _, [_] => none
  | depth, c :: d :: cs =>
    if c = '/' ∧ d = '*' then
      (commentBody (depth + 1) cs).map fun (body, rest) => (c :: d :: body, rest)
    else if c = '*' ∧ d = '/' then
      match depth with
      | 0 => some ([c, d], cs)
      | depth + 1 => (commentBody depth cs).map fun (body, rest) => (c :: d :: body, rest)
    else (commentBody depth (d :: cs)).map fun (body, rest) => (c :: body, rest)

def blockComment (cs : List Char) : Segment × List Char :=
  match commentBody 0 cs with
  | some (body, rest) => (⟨.comment, '/' :: '*' :: body⟩, rest)
  | none => (⟨.openComment, '/' :: '*' :: cs⟩, [])

/-- The first segment of `c :: cs`, and the text after it. -/
def first (c : Char) (cs : List Char) : Segment × List Char :=
  if isBlank c then (⟨.blank, [c]⟩, cs)
  else if startsName c then word c cs
  else if c.isDigit then number c cs
  else if c = '"' then quoted cs
  else if c = '/' ∧ cs.head? = some '/' then lineComment cs
  else if c = '/' ∧ cs.head? = some '*' then blockComment cs.tail
  else mark c cs

theorem commentBody_append {depth : Nat} {cs body rest : List Char}
    (h : commentBody depth cs = some (body, rest)) : body ++ rest = cs := by
  fun_induction commentBody depth cs generalizing body rest with
  | case1 => cases h
  | case2 => cases h
  | case3 depth c d cs hc ih =>
    obtain ⟨⟨b, r⟩, hb, heq⟩ := Option.map_eq_some_iff.1 h
    cases heq
    simp [ih hb]
  | case4 =>
    cases h
    rfl
  | case5 c d cs ho hc depth ih =>
    obtain ⟨⟨b, r⟩, hb, heq⟩ := Option.map_eq_some_iff.1 h
    cases heq
    simp [ih hb]
  | case6 depth c d cs ho hc ih =>
    obtain ⟨⟨b, r⟩, hb, heq⟩ := Option.map_eq_some_iff.1 h
    cases heq
    simp [ih hb]

theorem quoted_append (cs : List Char) : (quoted cs).1.text ++ (quoted cs).2 = '"' :: cs := by
  have h : cs.takeWhile (· ≠ '"') ++ cs.dropWhile (· ≠ '"') = cs := List.takeWhile_append_dropWhile
  unfold quoted
  split <;> rename_i hd <;> rw [hd] at h <;> simpa using h

theorem blockComment_append (cs : List Char) :
    (blockComment cs).1.text ++ (blockComment cs).2 = '/' :: '*' :: cs := by
  unfold blockComment
  split
  · rename_i body rest h
    simp [commentBody_append h]
  · simp

/-- No character is lost between a segment and the text after it. -/
theorem first_append (c : Char) (cs : List Char) :
    (first c cs).1.text ++ (first c cs).2 = c :: cs := by
  unfold first
  split
  · rfl
  split
  · exact word_append c cs
  split
  · exact number_append c cs
  split
  · rename_i h
    rw [h]
    exact quoted_append cs
  split
  · rename_i h
    simp [lineComment, h.1]
  split
  · rename_i h
    obtain ⟨hc, hcs⟩ := h
    rw [blockComment_append, hc]
    cases cs with
    | nil => cases hcs
    | cons d cs => simp_all
  · exact mark_append c cs

theorem first_text_ne_nil (c : Char) (cs : List Char) : (first c cs).1.text ≠ [] := by
  unfold first
  split
  · simp
  split
  · simp [word]
  split
  · simp [number]
  split
  · unfold quoted
    split <;> simp
  split
  · simp [lineComment]
  split
  · unfold blockComment
    split <;> simp
  · exact mark_text_ne_nil c cs

theorem length_first_rest (c : Char) (cs : List Char) :
    (first c cs).2.length < (c :: cs).length := by
  have h := congrArg List.length (first_append c cs)
  have hpos := List.length_pos_iff.2 (first_text_ne_nil c cs)
  simp only [List.length_append] at h
  omega

/-- The segments of a text, in order. -/
def all : List Char → List Segment
  | [] => []
  | c :: cs => (first c cs).1 :: all (first c cs).2
termination_by cs => cs.length
decreasing_by exact length_first_rest c cs

@[simp] theorem all_nil : all [] = [] := by rw [all]

theorem all_cons (c : Char) (cs : List Char) :
    all (c :: cs) = (first c cs).1 :: all (first c cs).2 := by rw [all]

theorem flatMap_text_all (cs : List Char) : (all cs).flatMap text = cs := by
  fun_induction all cs with
  | case1 => rfl
  | case2 c cs ih => rw [List.flatMap_cons, ih, first_append]

/-- Consecutive segments, the first of which begins on the given line. -/
def scannedFrom : (line : Nat) → List Segment → List Scanned
  | _, [] => []
  | line, s :: rest => (s.scanned? line).toList ++ scannedFrom (line + lineFeeds s.text) rest

@[simp] theorem scannedFrom_nil (line : Nat) : scannedFrom line [] = [] := rfl

theorem scannedFrom_append (line : Nat) (ss ts : List Segment) :
    scannedFrom line (ss ++ ts) =
      scannedFrom line ss ++ scannedFrom (line + lineFeeds (ss.flatMap text)) ts := by
  induction ss generalizing line with
  | nil => rfl
  | cons s ss ih => simp [scannedFrom, ih, Nat.add_assoc]

end Segment

end TreeWalk

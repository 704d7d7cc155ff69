import TreeWalk.Proofs.Lexis.Segmentation

/-! The scanner and its line counter. At each place it finds what the first segment there gives, and
its line has gone up by the line feeds of that segment, wherever these were counted. -/
namespace TreeWalk

theorem lineFeeds_eq_zero {cs : List Char} (h : '\n' ∉ cs) : lineFeeds cs = 0 :=
  List.count_eq_zero.2 h

theorem lineFeeds_cons_of_ne {c : Char} (hc : c ≠ '\n') (cs : List Char) :
    lineFeeds (c :: cs) = lineFeeds cs := by
  rw [lineFeeds_cons, if_neg hc, Nat.add_zero]

theorem lineFeeds_cons_cons_of_ne {c d : Char} (hc : c ≠ '\n') (hd : d ≠ '\n') (cs : List Char) :
    lineFeeds (c :: d :: cs) = lineFeeds cs := by
  rw [lineFeeds_cons_of_ne hc, lineFeeds_cons_of_ne hd]

namespace Segment

theorem of_mem_takeWhile {p : Char → Bool} {cs : List Char} : ∀ d ∈ cs.takeWhile p, p d :=
  List.all_eq_true.1 List.all_takeWhile

/-- Where all characters pass and a line feed does not, there is none. -/
theorem lineFeeds_takeWhile {p : Char → Bool} (hp : p '\n' = false) (cs : List Char) :
    lineFeeds (cs.takeWhile p) = 0 := by
  apply lineFeeds_eq_zero
  intro hmem
  have hline := of_mem_takeWhile _ hmem
  rw [hp] at hline
  cases hline

theorem lineFeeds_word {c : Char} (hc : startsName c) (cs : List Char) :
    lineFeeds (word c cs).1.text = 0 := by
  have hne : c ≠ '\n' := by
    rintro rfl
    exact absurd hc (by decide)
  show lineFeeds (c :: cs.takeWhile continuesName) = 0
  rw [lineFeeds_cons_of_ne hne, lineFeeds_takeWhile (by decide)]

theorem lineFeeds_fraction (cs : List Char) : lineFeeds (fraction cs).1 = 0 := by
  unfold fraction
  split
  · rename_i point d cs
    split
    · rename_i h
      obtain ⟨rfl, hd⟩ := h
      have hne : d ≠ '\n' := by
        rintro rfl
        exact absurd hd (by decide)
      rw [lineFeeds_cons_cons_of_ne (by decide) hne, lineFeeds_takeWhile (by decide)]
    · rfl
  · rfl

theorem lineFeeds_number {c : Char} (hc : c.isDigit) (cs : List Char) :
    lineFeeds (number c cs).1.text = 0 := by
  have hne : c ≠ '\n' := by
    rintro rfl
    exact absurd hc (by decide)
  show lineFeeds (c :: cs.takeWhile Char.isDigit ++ (fraction (cs.dropWhile Char.isDigit)).1) = 0
  rw [lineFeeds_append, lineFeeds_cons_of_ne hne, lineFeeds_takeWhile (by decide),
    lineFeeds_fraction]

theorem lineFeeds_mark {c : Char} (hc : c ≠ '\n') (cs : List Char) :
    lineFeeds (mark c cs).1.text = 0 := by
  have hone : lineFeeds [c] = 0 := lineFeeds_cons_of_ne hc []
  unfold mark
  split
  · rename_i s d rest h
    have hd : d ≠ '\n' := by
      rintro rfl
      simp [Symbol.double?] at h
    show lineFeeds [c, d] = 0
    rw [lineFeeds_cons_cons_of_ne hc hd, lineFeeds_nil]
  · split <;> exact hone

end Segment

namespace Scanner

theorem lineAfter (line : Nat) (c : Char) :
    (if c = '\n' then line + 1 else line) = line + lineFeeds [c] := by
  rw [lineFeeds_cons]
  split <;> rfl

theorem untilQuote_eq (feeds : Nat) (cs : List Char) :
    untilQuote feeds cs =
      (cs.takeWhile (· ≠ '"'), feeds + lineFeeds (cs.takeWhile (· ≠ '"')),
        cs.dropWhile (· ≠ '"')) := by
  fun_induction untilQuote feeds cs with
  | case1 feeds => rfl
  | case2 feeds cs => simp
  | case3 feeds c cs hc content feeds' rest heq ih =>
    obtain ⟨rfl, hrest⟩ := Prod.mk.inj (heq.symm.trans ih)
    obtain ⟨rfl, rfl⟩ := Prod.mk.inj hrest
    have htake : (c :: cs).takeWhile (· ≠ '"') = [c] ++ cs.takeWhile (· ≠ '"') := by simp [hc]
    have hdrop : (c :: cs).dropWhile (· ≠ '"') = cs.dropWhile (· ≠ '"') := by simp [hc]
    rw [htake, hdrop, lineAfter, lineFeeds_append, Nat.add_assoc, List.singleton_append]

theorem string_eq (line : Nat) (cs : List Char) :
    string line cs =
      ((Segment.quoted cs).1.scanned? line,
        ⟨(Segment.quoted cs).2, line + lineFeeds (Segment.quoted cs).1.text⟩) := by
  have hopening (content : List Char) : lineFeeds ('"' :: content) = lineFeeds content :=
    lineFeeds_cons_of_ne (by decide) content
  unfold string Segment.quoted
  rw [untilQuote_eq]
  cases hdrop : cs.dropWhile (· ≠ '"') with
  | nil => simp only [Segment.scanned?, hopening, Nat.zero_add]
  | cons quote rest =>
    have hstop := List.head?_dropWhile_not (· ≠ '"') cs
    rw [hdrop] at hstop
    have hquote : quote = '"' := by simpa using hstop
    have hclosing : lineFeeds [quote] = 0 := by
      rw [hquote]
      rfl
    simp only [Segment.scanned?, hopening, Nat.zero_add, lineFeeds_append, List.cons_append,
      hclosing, Nat.add_zero]

section Comments

variable {hold : Int → Int} {start : Nat} {depth : Int}

theorem blockComment_of_closed (h : depth ≤ 0) (line : Nat) (cs : List Char) :
    blockComment hold start depth line cs = (none, ⟨cs, line⟩) := by
  fun_cases blockComment hold start depth line cs with
  | case1 => rw [if_neg (by omega)]
  | case2 => rfl
  | _ => contradiction

theorem blockComment_of_empty (h : 0 < depth) (line : Nat) :
    blockComment hold start depth line [] =
      (some (.error ⟨start, .unterminatedComment⟩), ⟨[], line⟩) := by
  rw [blockComment, if_pos h]

theorem blockComment_of_opening (h : 0 < depth) (line : Nat) (cs : List Char) :
    blockComment hold start depth line ('/' :: '*' :: cs) =
      blockComment hold start (hold (depth + 1)) line cs := by
  rw [blockComment, if_neg (by omega)]

theorem blockComment_of_closing (h : 0 < depth) (line : Nat) (cs : List Char) :
    blockComment hold start depth line ('*' :: '/' :: cs) =
      blockComment hold start (hold (depth - 1)) line cs := by
  rw [blockComment, if_neg (by omega)]

/-- A character that begins no delimiter is passed, and counts if it ends a line. -/
theorem blockComment_of_plain (h : 0 < depth) (line : Nat) {c : Char} {cs : List Char}
    (ho : ¬(c = '/' ∧ cs.head? = some '*')) (hc : ¬(c = '*' ∧ cs.head? = some '/')) :
    blockComment hold start depth line (c :: cs) =
      blockComment hold start depth (line + lineFeeds [c]) cs := by
  have hd : ¬depth ≤ 0 := by omega
  by_cases hline : c = '\n'
  · rw [hline, blockComment, if_neg hd]
    rfl
  · rw [blockComment, if_neg hd, lineFeeds_cons_of_ne hline]
    · rfl
    · exact hline
    · rintro cs' rfl rfl
      exact ho ⟨rfl, rfl⟩
    · rintro cs' rfl rfl
      exact hc ⟨rfl, rfl⟩

end Comments

/-- The loop over a comment ends where the text is balanced, or else with the text, and the line has
gone up by the line feeds of all that it has passed. -/
theorem blockComment_eq (start n line : Nat) (cs : List Char) :
    blockComment id start (n + 1 : Nat) line cs =
      match Segment.commentBody n cs with
      | some (body, rest) => (none, ⟨rest, line + lineFeeds body⟩)
      | none => (some (.error ⟨start, .unterminatedComment⟩), ⟨[], line + lineFeeds cs⟩) := by
  have hopening := lineFeeds_cons_cons_of_ne (c := '/') (d := '*') (by decide) (by decide)
  have hclosing := lineFeeds_cons_cons_of_ne (c := '*') (d := '/') (by decide) (by decide)
  fun_induction Segment.commentBody n cs generalizing line with
  | case1 n => exact blockComment_of_empty (by omega) line
  | case2 n c =>
    rw [blockComment_of_plain (by omega) line (by simp) (by simp),
      blockComment_of_empty (by omega)]
  | case3 n c d cs ho ih =>
    obtain ⟨rfl, rfl⟩ := ho
    rw [blockComment_of_opening (by omega), id, ← Int.natCast_add_one, ih]
    cases Segment.commentBody (n + 1) cs with
    | none => simp only [Option.map_none, hopening]
    | some found => simp only [Option.map_some, hopening]
  | case4 c d cs ho hc =>
    obtain ⟨rfl, rfl⟩ := hc
    rw [blockComment_of_closing (by omega), blockComment_of_closed (by simp)]
    rfl
  | case5 c d cs ho hc n ih =>
    obtain ⟨rfl, rfl⟩ := hc
    have hdepth : ((n + 1 + 1 : Nat) : Int) - 1 = (n + 1 : Nat) := by omega
    rw [blockComment_of_closing (by omega), id, hdepth, ih]
    cases Segment.commentBody n cs with
    | none => simp only [Option.map_none, hclosing]
    | some found => simp only [Option.map_some, hclosing]
  | case6 n c d cs ho hc ih =>
    have hlines (cs : List Char) :
        line + lineFeeds [c] + lineFeeds cs = line + lineFeeds (c :: cs) := by
      rw [Nat.add_assoc, ← lineFeeds_append, List.singleton_append]
    rw [blockComment_of_plain (by omega) line (by simpa using ho) (by simpa using hc), ih]
    cases Segment.commentBody n (d :: cs) with
    | none => simp only [Option.map_none, hlines]
    | some found => simp only [Option.map_some, hlines]

/-- One step: what is found is what the first segment gives on the line where it begins, and the
line after it has counted the line feeds of the segment. -/
theorem next_eq (line : Nat) (c : Char) (cs : List Char) :
    next id line c cs =
      ((Segment.first c cs).1.scanned? line,
        ⟨(Segment.first c cs).2, line + lineFeeds (Segment.first c cs).1.text⟩) := by
  have hwithin {s : Segment × List Char} (h : lineFeeds s.1.text = 0) :
      within line s = (s.1.scanned? line, ⟨s.2, line + lineFeeds s.1.text⟩) := by
    rw [h, Nat.add_zero, within]
  unfold next Segment.first
  split
  · rw [lineAfter]
    rfl
  rename_i hb
  split
  · rename_i hn
    exact hwithin (Segment.lineFeeds_word hn cs)
  split
  · rename_i hd
    exact hwithin (Segment.lineFeeds_number hd cs)
  split
  · exact string_eq line cs
  split
  · have hbody : lineFeeds ('/' :: cs.takeWhile (· ≠ '\n')) = 0 := by
      rw [lineFeeds_cons_of_ne (by decide), Segment.lineFeeds_takeWhile (by decide)]
    rw [Segment.lineComment, hbody, Nat.add_zero]
    rfl
  split
  · have hopening := lineFeeds_cons_cons_of_ne (c := '/') (d := '*') (by decide) (by decide)
    have hloop := blockComment_eq line 0 line cs.tail
    rw [Segment.blockComment]
    refine hloop.trans ?_
    cases Segment.commentBody 0 cs.tail with
    | none => simp only [Segment.scanned?, hopening]
    | some found => simp only [Segment.scanned?, hopening]
  · have hline : c ≠ '\n' := by
      rintro rfl
      exact hb (by decide)
    exact hwithin (Segment.lineFeeds_mark hline cs)

/-- A run: the segments of the text give what is found, and the line at the end has counted all of
its line feeds. -/
theorem items_eq (line : Nat) (cs : List Char) :
    items id line cs =
      (Segment.scannedFrom line (Segment.all cs), line + lineFeeds cs) := by
  fun_induction Segment.all cs generalizing line with
  | case1 => rw [items_nil]; rfl
  | case2 c cs ih =>
    have htext : lineFeeds (Segment.first c cs).1.text + lineFeeds (Segment.first c cs).2 =
        lineFeeds (c :: cs) := by
      rw [← lineFeeds_append, Segment.first_append]
    rw [items]
    simp only [next_eq, ih, Segment.scannedFrom, Nat.add_assoc, htext]

end Scanner

theorem scan_eq (source : String) :
    scan source = Segment.scannedFrom 1 (Segment.all source.toList) := by
  rw [scan, Scanner.items_eq]

theorem endToken_eq (source : String) :
    endToken source = ⟨.endOfFile, "", 1 + lineFeeds source.toList⟩ := by
  rw [endToken, Scanner.items_eq]

/-! A counter of open comments in a word of 32 bits. Two characters open a comment, so a source that
makes the counter leave these words has at least as many characters as there are words. -/

/-- The number that a signed word of 32 bits holds in place of a number. -/
def word32 (n : Int) : Int := (Int32.ofInt n).toInt

theorem word32_of_le (n : Int) (hn : 0 ≤ n) (hle : n ≤ Int32.maxValue.toInt) : word32 n = n := by
  rw [Int32.toInt_maxValue] at hle
  exact Int32.toInt_ofInt_of_le (by omega) (by omega)

namespace Scanner

variable {hold : Int → Int} {bound : Int}

/-- Each comment that is open beyond the first has taken two characters, so the counter stays within
the numbers that it holds. -/
theorem blockComment_holding (hhold : ∀ n : Int, 0 ≤ n → n ≤ bound → hold n = n) (start : Nat)
    (depth : Int) (line : Nat) (cs : List Char) (h : 2 * depth + cs.length ≤ 2 * bound + 1) :
    blockComment hold start depth line cs = blockComment id start depth line cs := by
  fun_induction blockComment id start depth line cs with
  | case1 => rfl
  | case2 depth line c cs hd => exact blockComment_of_closed hd line (c :: cs)
  | case3 depth line hd cs ih =>
    rw [List.length_cons] at h
    rw [blockComment, if_neg hd]
    exact ih (by omega)
  | case4 depth line hd cs ih =>
    rw [List.length_cons, List.length_cons] at h
    rw [blockComment_of_opening (by omega), hhold _ (by omega) (by omega)]
    exact ih (by simp only [id]; omega)
  | case5 depth line hd cs ih =>
    rw [List.length_cons, List.length_cons] at h
    rw [blockComment_of_closing (by omega), hhold _ (by omega) (by omega)]
    exact ih (by simp only [id]; omega)
  | case6 depth line c hd cs hline hopen hclose ih =>
    rw [List.length_cons] at h
    rw [blockComment, if_neg hd]
    · exact ih (by omega)
    · exact hline
    · exact hopen
    · exact hclose

theorem next_holding (hhold : ∀ n : Int, 0 ≤ n → n ≤ bound → hold n = n) (line : Nat) {c : Char}
    {cs : List Char} (h : ((c :: cs).length : Int) ≤ 2 * bound + 1) :
    next hold line c cs = next id line c cs := by
  unfold next
  split
  · rfl
  split
  · rfl
  split
  · rfl
  split
  · rfl
  split
  · rfl
  split
  · rename_i hopening
    have hne : cs ≠ [] := by
      rintro rfl
      exact absurd hopening.2 (by decide)
    have hpos := List.length_pos_iff.2 hne
    rw [List.length_cons] at h
    apply blockComment_holding hhold
    rw [List.length_tail]
    omega
  · rfl

theorem items_holding (hhold : ∀ n : Int, 0 ≤ n → n ≤ bound → hold n = n) (line : Nat)
    (cs : List Char) (h : (cs.length : Int) ≤ 2 * bound + 1) :
    items hold line cs = items id line cs := by
  fun_induction items id line cs with
  | case1 line => rw [items_nil]
  | case2 line c cs found later ih =>
    have hshorter := Nat.le_of_lt (length_next id line c cs)
    have hlater := ih (Int.le_trans (Int.ofNat_le.2 hshorter) h)
    rw [items]
    simp only [next_holding hhold line h, found, hlater, later]

end Scanner

/-- The scanner of a short source is the same with a counter of 32 bits. -/
theorem scanHolding_word32 {source : String} (hshort : source.length < UInt32.size) :
    scanHolding word32 source = scanToEnd source := by
  have hlength : (source.toList.length : Int) ≤ 2 * Int32.maxValue.toInt + 1 := by
    rw [String.length_toList, Int32.toInt_maxValue]
    exact Int.le_of_lt_add_one (Int.ofNat_lt.2 hshort)
  rw [scanToEnd, scanHolding, scanHolding, Scanner.items_holding word32_of_le 1 _ hlength]

end TreeWalk

import TreeWalk.Proofs.Lexis.Layout

/-! Characters that have no place in the language. Each of them parts what stands around it as a
space does, and gives an error more. -/
namespace TreeWalk

/-- The error for a character that has no place in the language. -/
def Scanned.isUnexpected : Scanned → Bool
  | error ⟨_, .unexpectedCharacter _⟩ => true
  | _ => false

namespace Segment

def IsRejected (s : Segment) : Prop := ∃ c, s.shape = .rejected c

/-- A space in place of a rejected character. -/
def blanked (s : Segment) : Segment :=
  match s.shape with
  | .rejected _ => ⟨.blank, [' ']⟩
  | _ => s

theorem blanked_of_not {s : Segment} (h : ¬s.IsRejected) : s.blanked = s := by
  unfold blanked
  split
  · rename_i c hc
    exact absurd ⟨c, hc⟩ h
  · rfl

theorem Candidate.eq_of_isRejected {cs : List Char} {s : Segment} (h : Candidate cs s)
    (hs : s.IsRejected) : ∃ c, s = ⟨.rejected c, [c]⟩ ∧ c ≠ '\n' := by
  obtain ⟨c, hc⟩ := hs
  cases h with
  | spelled h hp =>
    rw [hc] at h
    cases h
  | openString => cases hc
  | openComment => cases hc
  | @rejected d rest hcs hq hnone =>
    refine ⟨d, rfl, ?_⟩
    rintro rfl
    exact hnone .blank ['\n'] (by simp [hcs]) (.blank (by simp))

theorem Division.eq_of_isRejected {cs : List Char} {ss : List Segment} (h : Division cs ss) :
    ∀ s ∈ ss, s.IsRejected → ∃ c, s = ⟨.rejected c, [c]⟩ ∧ c ≠ '\n' := by
  induction h with
  | nil => simp
  | cons hs hrest ih => exact List.forall_mem_cons.2 ⟨hs.1.eq_of_isRejected, ih⟩

/-- One space for one character, on the same line. -/
theorem Division.blanked_measures {cs : List Char} {ss : List Segment} (h : Division cs ss) :
    ∀ s ∈ ss, s.blanked.text.length = s.text.length ∧
      lineFeeds s.blanked.text = lineFeeds s.text := by
  intro s hs
  by_cases hrejected : s.IsRejected
  · obtain ⟨c, rfl, hc⟩ := h.eq_of_isRejected s hs hrejected
    simp [blanked, lineFeeds_cons, hc]
  · rw [blanked_of_not hrejected]
    exact ⟨rfl, rfl⟩

/-- A space in place of one rejected character leaves all other segments as they are. -/
theorem Division.blank {cs : List Char} {front back : List Segment} {s : Segment}
    (h : Division cs (front ++ s :: back)) (hs : s.IsRejected) :
    Division ((front ++ s.blanked :: back).flatMap text) (front ++ s.blanked :: back) := by
  obtain ⟨c, hc⟩ := hs
  have hblanked : s.blanked = ⟨.blank, [' ']⟩ := by rw [blanked, hc]
  have hloud : ¬s.IsSilent := by simp [IsSilent, hc]
  have hback : all (back.flatMap text) = back := by
    rw [List.append_cons] at h
    exact (division_all _).unique h.after
  have hspace : isBlank ' ' := by decide
  have hall := h.all_append_blank hloud hspace (back.flatMap text)
  rw [hback, ← hblanked] at hall
  have htext : (front ++ s.blanked :: back).flatMap text =
      front.flatMap text ++ ' ' :: back.flatMap text := by simp [hblanked]
  rw [htext, ← hall]
  exact division_all _

/-- So do spaces in place of all rejected characters from one segment on. -/
theorem Division.map_blanked {cs : List Char} {front back : List Segment}
    (h : Division cs (front ++ back)) :
    Division ((front ++ back.map blanked).flatMap text) (front ++ back.map blanked) := by
  induction back generalizing cs front with
  | nil =>
    rw [List.append_nil] at h
    rw [List.map_nil, List.append_nil, h.flatMap_text]
    exact h
  | cons s back ih =>
    have hnext : ∃ ds, Division ds (front ++ [s.blanked] ++ back) := by
      rw [List.append_assoc, List.singleton_append]
      by_cases hs : s.IsRejected
      · exact ⟨_, h.blank hs⟩
      · rw [blanked_of_not hs]
        exact ⟨cs, h⟩
    obtain ⟨ds, hds⟩ := hnext
    have hrest := ih hds
    rwa [List.append_assoc, List.singleton_append] at hrest

/-- Blanking changes the segments that are rejected, and no others. -/
theorem all_blanked (cs : List Char) :
    all (((all cs).map blanked).flatMap text) = (all cs).map blanked := by
  have h : Division cs ([] ++ all cs) := division_all cs
  exact (division_all _).unique h.map_blanked

/-- Blanking keeps what is added up over the segments and the same for each of them. -/
theorem measure_blanked {measure : List Char → Nat}
    (hadd : ∀ cs ds, measure (cs ++ ds) = measure cs + measure ds) {ss : List Segment}
    (h : ∀ s ∈ ss, measure s.blanked.text = measure s.text) :
    measure ((ss.map blanked).flatMap text) = measure (ss.flatMap text) := by
  induction ss with
  | nil => rfl
  | cons s ss ih =>
    obtain ⟨hs, hss⟩ := List.forall_mem_cons.1 h
    simp only [List.map_cons, List.flatMap_cons, hadd, hs, ih hss]

/-- Where a rejected character stands there is a space now. -/
theorem getElem?_blanked_of_rejected {front back : List Segment} {s : Segment}
    (hs : s.IsRejected) (h : ∀ s ∈ front, s.blanked.text.length = s.text.length) :
    (((front ++ s :: back).map blanked).flatMap text)[(front.flatMap text).length]? = some ' ' := by
  obtain ⟨c, hc⟩ := hs
  have hlength := measure_blanked (fun _ _ => List.length_append) h
  rw [List.map_append, List.flatMap_append, ← hlength,
    List.getElem?_append_right (Nat.le_refl _)]
  simp [blanked, hc]

/-- Elsewhere the characters are the same. -/
theorem getElem?_blanked_of_not_rejected {ss : List Segment}
    (h : ∀ s ∈ ss, s.IsRejected → s.text.length = 1)
    (hlength : ∀ s ∈ ss, s.blanked.text.length = s.text.length) {n : Nat}
    (hn : ∀ front s back, ss = front ++ s :: back → s.IsRejected →
      (front.flatMap text).length ≠ n) :
    ((ss.map blanked).flatMap text)[n]? = (ss.flatMap text)[n]? := by
  induction ss generalizing n with
  | nil => rfl
  | cons s ss ih =>
    obtain ⟨hs, hss⟩ := List.forall_mem_cons.1 h
    obtain ⟨hsame, hrest⟩ := List.forall_mem_cons.1 hlength
    rw [List.map_cons, List.flatMap_cons, List.flatMap_cons]
    by_cases hlt : n < s.text.length
    · have hkept : ¬s.IsRejected := by
        intro hrejected
        have hone := hs hrejected
        have hzero := hn [] s ss rfl hrejected
        rw [List.flatMap_nil, List.length_nil] at hzero
        omega
      rw [blanked_of_not hkept, List.getElem?_append_left hlt, List.getElem?_append_left hlt]
    · have hle : s.text.length ≤ n := Nat.le_of_not_lt hlt
      rw [List.getElem?_append_right (by rwa [hsame]), List.getElem?_append_right hle, hsame]
      apply ih hss hrest
      intro front s' back hsplit hrejected
      have hne := hn (s :: front) s' back (by rw [hsplit, List.cons_append]) hrejected
      rw [List.flatMap_cons, List.length_append] at hne
      omega

/-- Blanked segments are scanned as the same tokens and errors on the same lines, but for the
characters that were rejected. -/
theorem scannedFrom_blanked {ss : List Segment}
    (h : ∀ s ∈ ss, lineFeeds s.blanked.text = lineFeeds s.text) (line : Nat) :
    scannedFrom line (ss.map blanked) =
      (scannedFrom line ss).filter fun item => !item.isUnexpected := by
  induction ss generalizing line with
  | nil => rfl
  | cons s ss ih =>
    obtain ⟨hs, hss⟩ := List.forall_mem_cons.1 h
    have hone : (s.blanked.scanned? line).toList =
        (s.scanned? line).toList.filter fun item => !item.isUnexpected := by
      unfold scanned? blanked
      cases hshape : s.shape <;> simp [hshape, Scanned.isUnexpected]
    rw [List.map_cons, scannedFrom, scannedFrom, List.filter_append, hone, hs, ih hss]

end Segment

/-- The source with a space in place of each character that scanning rejects. -/
def blanked (source : String) : String :=
  String.ofList (((Segment.all source.toList).map Segment.blanked).flatMap Segment.text)

/-- At this place of a source stands a character that scanning rejects. -/
def RejectsAt (source : String) (n : Nat) : Prop :=
  ∃ front s back, Segment.Division source.toList (front ++ s :: back) ∧ s.IsRejected ∧
    (front.flatMap Segment.text).length = n

/-- A rejected character acts as a space. With spaces in place of all of them, and nothing else
changed, a source is scanned as before, without the errors for these characters. -/
theorem scanToEnd_blanked (source : String) :
    (∀ n, RejectsAt source n → (blanked source).toList[n]? = some ' ') ∧
    (∀ n, ¬RejectsAt source n → (blanked source).toList[n]? = source.toList[n]?) ∧
    scanToEnd (blanked source) =
      (scanToEnd source).filter fun item => !item.isUnexpected := by
  have hdivision := Segment.division_all source.toList
  have hmeasures := hdivision.blanked_measures
  have htext : (blanked source).toList =
      ((Segment.all source.toList).map Segment.blanked).flatMap Segment.text :=
    String.toList_ofList
  refine ⟨fun n hn => ?_, fun n hn => ?_, ?_⟩
  · obtain ⟨front, s, back, hsplit, hs, rfl⟩ := hn
    have hall := (Segment.division_all _).unique hsplit
    rw [htext, hall]
    apply Segment.getElem?_blanked_of_rejected hs
    intro s hs
    exact (hmeasures s (by simp [hall, hs])).1
  · have hone : ∀ s ∈ Segment.all source.toList, s.IsRejected → s.text.length = 1 := by
      intro s hs hrejected
      obtain ⟨c, rfl, -⟩ := hdivision.eq_of_isRejected s hs hrejected
      rfl
    rw [htext, Segment.getElem?_blanked_of_not_rejected hone fun s hs => (hmeasures s hs).1,
      Segment.flatMap_text_all]
    intro front s back hsplit hrejected hlength
    rw [hsplit] at hdivision
    exact hn ⟨front, s, back, hdivision, hrejected, hlength⟩
  · have hlines : ∀ s ∈ Segment.all source.toList,
        lineFeeds s.blanked.text = lineFeeds s.text := fun s hs => (hmeasures s hs).2
    have hend : endToken (blanked source) = endToken source := by
      rw [endToken_eq, htext, Segment.measure_blanked lineFeeds_append hlines,
        Segment.flatMap_text_all, endToken_eq]
    have hscan : scan (blanked source) = (scan source).filter fun item => !item.isUnexpected := by
      rw [scan_eq, htext, Segment.all_blanked, Segment.scannedFrom_blanked hlines, scan_eq]
    rw [scanToEnd_eq, scanToEnd_eq, hscan, hend, List.filter_append]
    rfl

/-- Of three colons the third is rejected, and an at sign where no string holds it. -/
theorem scanToEnd_blanked_colons :
    blanked ":::@\"@\"" = "::  \"@\"" ∧
    scanToEnd ":::@\"@\"" = [.token ⟨.symbol .doubleColon, "::", 1⟩,
      .error ⟨1, .unexpectedCharacter ':'⟩, .error ⟨1, .unexpectedCharacter '@'⟩,
      .token ⟨.string "@", "\"@\"", 1⟩, .token ⟨.endOfFile, "", 1⟩] ∧
    scanToEnd "::  \"@\"" = [.token ⟨.symbol .doubleColon, "::", 1⟩,
      .token ⟨.string "@", "\"@\"", 1⟩, .token ⟨.endOfFile, "", 1⟩] := by
  have hblanked : blanked ":::@\"@\"" = "::  \"@\"" := by decide +kernel
  have hscan : scanToEnd ":::@\"@\"" = [.token ⟨.symbol .doubleColon, "::", 1⟩,
      .error ⟨1, .unexpectedCharacter ':'⟩, .error ⟨1, .unexpectedCharacter '@'⟩,
      .token ⟨.string "@", "\"@\"", 1⟩, .token ⟨.endOfFile, "", 1⟩] := by decide +kernel
  obtain ⟨-, -, hfiltered⟩ := scanToEnd_blanked ":::@\"@\""
  rw [hblanked, hscan] at hfiltered
  exact ⟨hblanked, hscan, hfiltered⟩

end TreeWalk

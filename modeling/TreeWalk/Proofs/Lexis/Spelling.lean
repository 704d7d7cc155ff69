import TreeWalk.Lexis.Segment

/-! How segments are spelled, told from their texts alone, and what it means to cut a text into the
longest segments that begin at each place. -/
namespace TreeWalk

namespace Segment

/-- How many more block comments a text opens than it closes. Delimiters are taken from left to
right and do not overlap. -/
def depth : List Char → Int
  | [] => 0
  | [_] => 0
  | c :: d :: cs =>
    if c = '/' ∧ d = '*' then depth cs + 1
    else if c = '*' ∧ d = '/' then depth cs - 1
    else depth (d :: cs)

/-- A block comment, up to where all that it opens is closed for the first time. -/
def IsBlockComment (text : List Char) : Prop :=
  ∃ body, text = '/' :: '*' :: body ∧ depth text = 0 ∧
    ∀ front, front <+: body → front ≠ body → depth ('/' :: '*' :: front) ≠ 0

/-- The texts of a shape, save for what never ends and for what has no place in the language. -/
inductive Spells : Shape → List Char → Prop
  | blank {c : Char} (h : c ∈ [' ', '\r', '\t', '\n']) : Spells .blank [c]
  | lineComment {body : List Char} (h : '\n' ∉ body) : Spells .comment ('/' :: '/' :: body)
  | blockComment {text : List Char} (h : IsBlockComment text) : Spells .comment text
  | symbol {s : Symbol} {text : List Char} (h : s.spelling.toList = text) :
    Spells (.token (.symbol s)) text
  | keyword {k : Keyword} {text : List Char} (h : k.spelling.toList = text) :
    Spells (.token (.keyword k)) text
  | name {c : Char} {word : List Char} (hc : startsName c) (hw : ∀ d ∈ word, continuesName d)
    (hk : ∀ k : Keyword, k.spelling.toList ≠ c :: word) : Spells (.token .identifier) (c :: word)
  | string {content : List Char} (h : '"' ∉ content) :
    Spells (.token (.string (String.ofList content))) ('"' :: (content ++ ['"']))
  | whole {ds : List Char} (hne : ds ≠ []) (hd : ∀ d ∈ ds, d.isDigit) :
    Spells (.token (.number (Decimal.toFloat ⟨Decimal.natOfDigits ds, 0⟩))) ds
  | fractional {ds places : List Char} (hne : ds ≠ []) (hd : ∀ d ∈ ds, d.isDigit)
    (hp : places ≠ []) (hpd : ∀ d ∈ places, d.isDigit) :
    Spells (.token (.number (Decimal.toFloat
      ⟨Decimal.natOfDigits (ds ++ places), -places.length⟩))) (ds ++ '.' :: places)

/-- The segments that may begin a text: one that is spelled there, a string or a comment that never
ends, or else a single character. -/
inductive Candidate (cs : List Char) : Segment → Prop
  | spelled {s : Segment} (h : Spells s.shape s.text) (hp : s.text <+: cs) : Candidate cs s
  | openString {content : List Char} (hcs : cs = '"' :: content) (h : '"' ∉ content) :
    Candidate cs ⟨.openString, cs⟩
  | openComment {body : List Char} (hcs : cs = '/' :: '*' :: body)
    (h : ∀ text, text <+: cs → ¬IsBlockComment text) : Candidate cs ⟨.openComment, cs⟩
  | rejected {c : Char} {rest : List Char} (hcs : cs = c :: rest) (hq : c ≠ '"')
    (h : ∀ shape text, text <+: cs → ¬Spells shape text) : Candidate cs ⟨.rejected c, [c]⟩

def IsLongest (cs : List Char) (s : Segment) : Prop :=
  Candidate cs s ∧ ∀ s', Candidate cs s' → s'.text.length ≤ s.text.length

/-- A text cut from left to right, each time into the longest segment and the text after it. -/
inductive Division : List Char → List Segment → Prop
  | nil : Division [] []
  | cons {s : Segment} {rest : List Char} {ss : List Segment} (h : IsLongest (s.text ++ rest) s)
    (hrest : Division rest ss) : Division (s.text ++ rest) (s :: ss)

end Segment

theorem Symbol.spelled (s : Symbol) :
    (∃ c, s.spelling.toList = [c] ∧ single? c = some s) ∨
      ∃ c d, s.spelling.toList = [c, d] ∧ double? c d = some s := by
  cases s <;> first
    | exact .inl ⟨_, rfl, rfl⟩
    | exact .inr ⟨_, _, rfl, rfl⟩

theorem Symbol.eq_of_spelling_eq {s t : Symbol} (h : s.spelling.toList = t.spelling.toList) :
    s = t := by
  rcases s.spelled with ⟨c, hs, hcs⟩ | ⟨c, d, hs, hcs⟩ <;>
    rcases t.spelled with ⟨c', ht, hct⟩ | ⟨c', d', ht, hct⟩ <;>
    simp_all

theorem Symbol.spelling_ne_slash (s : Symbol) (d : Char) (cs : List Char) :
    s.spelling.toList ≠ '/' :: d :: cs := by
  intro h
  rcases s.spelled with ⟨c, hs, -⟩ | ⟨c, e, hs, hc⟩
  · simp [hs] at h
  · obtain ⟨rfl, -⟩ := List.cons.inj (hs.symm.trans h)
    cases hc

theorem Symbol.head_spelling {s : Symbol} {c : Char} {cs : List Char}
    (h : s.spelling.toList = c :: cs) :
    Segment.isBlank c = false ∧ Segment.startsName c = false ∧ c.isDigit = false ∧ c ≠ '"' := by
  have hall : s.spelling.toList.head?.all fun c =>
      !Segment.isBlank c && !Segment.startsName c && !c.isDigit && c != '"' := by
    cases s <;> rfl
  simpa [h, and_assoc] using hall

theorem Keyword.spelled (k : Keyword) :
    ∃ c cs, k.spelling.toList = c :: cs ∧ Segment.startsName c ∧
      ∀ d ∈ cs, Segment.continuesName d := by
  have hall : k.spelling.toList.tail.all Segment.continuesName := by cases k <;> rfl
  cases k <;> exact ⟨_, _, rfl, rfl, List.all_eq_true.1 hall⟩

namespace Segment

theorem isBlank_iff {c : Char} : isBlank c ↔ c ∈ [' ', '\r', '\t', '\n'] := by
  simp [isBlank, or_assoc]

theorem wordKind_eq_keyword {k : Keyword} {word : List Char} (h : k.spelling.toList = word) :
    wordKind word = .keyword k := by
  rw [wordKind, ← h, String.ofList_toList, Keyword.ofSpelling?_spelling]

theorem wordKind_eq_identifier {word : List Char} (h : ∀ k : Keyword, k.spelling.toList ≠ word) :
    wordKind word = .identifier := by
  rw [wordKind]
  cases hk : Keyword.ofSpelling? (String.ofList word) with
  | none => rfl
  | some k =>
    have hword : k.spelling.toList = word := by
      rw [Keyword.spelling_of_ofSpelling? hk, String.toList_ofList]
    exact absurd hword (h k)

/-- Words are spelled as what the keyword table makes of them. -/
theorem spells_wordKind {c : Char} {word : List Char} (hc : startsName c)
    (hw : ∀ d ∈ word, continuesName d) : Spells (.token (wordKind (c :: word))) (c :: word) := by
  by_cases hk : ∀ k : Keyword, k.spelling.toList ≠ c :: word
  · rw [wordKind_eq_identifier hk]
    exact .name hc hw hk
  · rw [Classical.not_forall] at hk
    obtain ⟨k, hk⟩ := hk
    have hk := Classical.not_not.1 hk
    rw [wordKind_eq_keyword hk]
    exact .keyword hk

theorem takeWhile_append_stop {p : Char → Bool} {x : Char} (hx : p x = false) (cs ds : List Char) :
    (cs ++ x :: ds).takeWhile p = cs.takeWhile p := by
  induction cs with
  | nil => simp [hx]
  | cons c cs ih => simp only [List.cons_append, List.takeWhile_cons, ih]

theorem dropWhile_append_stop {p : Char → Bool} {x : Char} (hx : p x = false) (cs ds : List Char) :
    (cs ++ x :: ds).dropWhile p = cs.dropWhile p ++ x :: ds := by
  induction cs with
  | nil => simp [hx]
  | cons c cs ih =>
    simp only [List.cons_append, List.dropWhile_cons, ih]
    split <;> rfl

/-- Characters that all pass end where one follows that does not. -/
theorem span_of_forall {p : Char → Bool} {ds : List Char} (h : ∀ d ∈ ds, p d) :
    ds.takeWhile p = ds ∧ ds.dropWhile p = [] ∧
      ∀ {x : Char} (cs : List Char), p x = false →
        (ds ++ x :: cs).takeWhile p = ds ∧ (ds ++ x :: cs).dropWhile p = x :: cs := by
  have htake : ds.takeWhile p = ds := by
    have happend : (ds ++ []).takeWhile p = ds ++ [] := List.takeWhile_append_of_pos h
    rwa [List.append_nil] at happend
  have hdrop : ds.dropWhile p = [] := by
    have happend : (ds ++ []).dropWhile p = [] := List.dropWhile_append_of_pos h
    rwa [List.append_nil] at happend
  refine ⟨htake, hdrop, fun cs hx => ?_⟩
  rw [takeWhile_append_stop hx, dropWhile_append_stop hx, htake, hdrop]
  exact ⟨rfl, rfl⟩

theorem ofNumeral_whole {ds : List Char} (h : ∀ d ∈ ds, d.isDigit) :
    Decimal.ofNumeral ds = ⟨Decimal.natOfDigits ds, 0⟩ := by
  obtain ⟨htake, hdrop, -⟩ := span_of_forall h
  simp [Decimal.ofNumeral, htake, hdrop]

theorem ofNumeral_fractional {ds places : List Char} (h : ∀ d ∈ ds, d.isDigit) :
    Decimal.ofNumeral (ds ++ '.' :: places) =
      ⟨Decimal.natOfDigits (ds ++ places), -places.length⟩ := by
  obtain ⟨-, -, hspan⟩ := span_of_forall h
  obtain ⟨htake, hdrop⟩ := hspan (x := '.') places rfl
  simp only [Decimal.ofNumeral, htake, hdrop, List.drop_one, List.tail_cons]

theorem not_isBlank_of_startsName {c : Char} (h : startsName c) : ¬isBlank c := by
  intro hb
  simp only [isBlank, Bool.or_eq_true, decide_eq_true_eq] at hb
  rcases hb with ((rfl | rfl) | rfl) | rfl <;> exact absurd h (by decide)

theorem eq_ofNat_of_isDigit {c : Char} (h : c.isDigit) : ∃ n < 10, c = Char.ofNat (48 + n) := by
  obtain ⟨hzero, hnine⟩ := Char.isDigit_iff_toNat.1 h
  have hlow : 48 ≤ c.toNat := hzero
  have hhigh : c.toNat ≤ 57 := hnine
  refine ⟨c.toNat - 48, by omega, ?_⟩
  rw [Nat.add_sub_cancel' hlow, Char.ofNat_toNat]

theorem not_isBlank_of_isDigit {c : Char} (h : c.isDigit) : ¬isBlank c := by
  have hdigits : ∀ n < 10, ¬isBlank (Char.ofNat (48 + n)) := by decide
  obtain ⟨n, hn, rfl⟩ := eq_ofNat_of_isDigit h
  exact hdigits n hn

theorem not_startsName_of_isDigit {c : Char} (h : c.isDigit) : ¬startsName c := by
  have hdigits : ∀ n < 10, ¬startsName (Char.ofNat (48 + n)) := by decide
  obtain ⟨n, hn, rfl⟩ := eq_ofNat_of_isDigit h
  exact hdigits n hn

/-- Digits, or digits, a point and further digits. -/
def IsNumeral (text : List Char) : Prop :=
  (∀ d ∈ text, d.isDigit) ∨ ∃ ds places, text = ds ++ '.' :: places ∧
    (∀ d ∈ ds, d.isDigit) ∧ places ≠ [] ∧ ∀ d ∈ places, d.isDigit

/-- A comment to the end of its line, or a block comment. -/
def IsComment (text : List Char) : Prop :=
  (∃ body, text = '/' :: '/' :: body ∧ '\n' ∉ body) ∨ IsBlockComment text

theorem IsComment.exists_eq {text : List Char} (h : IsComment text) :
    ∃ d body, text = '/' :: d :: body := by
  rcases h with ⟨body, rfl, -⟩ | ⟨body, rfl, -⟩
  · exact ⟨'/', body, rfl⟩
  · exact ⟨'*', body, rfl⟩

/-- What a spelled text must be, as its first character has it. -/
def FitsHead (shape : Shape) (c : Char) (cs : List Char) : Prop :=
  if isBlank c then shape = .blank ∧ cs = []
  else if startsName c then
    shape = .token (wordKind (c :: cs)) ∧ ∀ d ∈ cs, continuesName d
  else if c.isDigit then
    shape = .token (.number (Decimal.ofNumeral (c :: cs)).toFloat) ∧ IsNumeral (c :: cs)
  else if c = '"' then
    ∃ content, cs = content ++ ['"'] ∧ '"' ∉ content ∧
      shape = .token (.string (String.ofList content))
  else
    (∃ s, s.spelling.toList = c :: cs ∧ shape = .token (.symbol s)) ∨
      IsComment (c :: cs) ∧ shape = .comment

theorem fitsHead_of_slash {shape : Shape} {cs : List Char} : FitsHead shape '/' cs ↔
    (∃ s, s.spelling.toList = '/' :: cs ∧ shape = .token (.symbol s)) ∨
      IsComment ('/' :: cs) ∧ shape = .comment := by
  rw [FitsHead, if_neg (by decide), if_neg (by decide), if_neg (by decide), if_neg (by decide)]

theorem IsComment.fitsHead {c : Char} {cs : List Char} (h : IsComment (c :: cs)) :
    FitsHead .comment c cs := by
  obtain ⟨d, body, hbody⟩ := h.exists_eq
  obtain ⟨rfl, -⟩ := List.cons.inj hbody
  exact fitsHead_of_slash.2 (.inr ⟨h, rfl⟩)

theorem fitsHead_of_startsName {c : Char} {cs : List Char} {shape : Shape} (hc : startsName c) :
    FitsHead shape c cs ↔
      shape = .token (wordKind (c :: cs)) ∧ ∀ d ∈ cs, continuesName d := by
  rw [FitsHead, if_neg (not_isBlank_of_startsName hc), if_pos hc]

theorem fitsHead_of_isDigit {c : Char} {cs : List Char} {shape : Shape} (hc : c.isDigit) :
    FitsHead shape c cs ↔
      shape = .token (.number (Decimal.ofNumeral (c :: cs)).toFloat) ∧ IsNumeral (c :: cs) := by
  rw [FitsHead, if_neg (not_isBlank_of_isDigit hc), if_neg (not_startsName_of_isDigit hc),
    if_pos hc]

theorem Spells.fitsHead {shape : Shape} {c : Char} {cs text : List Char}
    (h : Spells shape text) (htext : text = c :: cs) : FitsHead shape c cs := by
  cases h with
  | blank h =>
    obtain ⟨rfl, rfl⟩ := List.cons.inj htext
    rw [FitsHead, if_pos (isBlank_iff.2 h)]
    exact ⟨rfl, rfl⟩
  | @lineComment body h => exact IsComment.fitsHead (.inl ⟨body, htext.symm, h⟩)
  | blockComment h => exact IsComment.fitsHead (.inr (htext ▸ h))
  | @symbol s text h =>
    rw [htext] at h
    obtain ⟨hblank, hname, hdigit, hquote⟩ := Symbol.head_spelling h
    rw [FitsHead, if_neg (by simp [hblank]), if_neg (by simp [hname]), if_neg (by simp [hdigit]),
      if_neg hquote]
    exact .inl ⟨s, h, rfl⟩
  | @keyword k text h =>
    rw [htext] at h
    obtain ⟨d, ds, hk, hd, hds⟩ := k.spelled
    obtain ⟨rfl, rfl⟩ := List.cons.inj (hk.symm.trans h)
    exact (fitsHead_of_startsName hd).2 ⟨by rw [wordKind_eq_keyword h], hds⟩
  | @name d word hd hw hk =>
    obtain ⟨rfl, rfl⟩ := List.cons.inj htext
    exact (fitsHead_of_startsName hd).2 ⟨by rw [wordKind_eq_identifier hk], hw⟩
  | @string content h =>
    obtain ⟨rfl, rfl⟩ := List.cons.inj htext
    exact ⟨content, rfl, h, rfl⟩
  | whole hne hd =>
    rw [htext] at hd ⊢
    exact (fitsHead_of_isDigit (hd c (by simp))).2 ⟨by rw [ofNumeral_whole hd], .inl hd⟩
  | @fractional ds places hne hd hp hpd =>
    cases ds with
    | nil => exact absurd rfl hne
    | cons d ds =>
      obtain ⟨rfl, rfl⟩ := List.cons.inj htext
      refine (fitsHead_of_isDigit (hd d (by simp))).2 ⟨?_, .inr ⟨d :: ds, places, rfl, hd, hp, hpd⟩⟩
      show _ = Shape.token (.number (Decimal.ofNumeral (d :: ds ++ '.' :: places)).toFloat)
      rw [ofNumeral_fractional hd]

theorem Spells.ne_nil {shape : Shape} {text : List Char} (h : Spells shape text) : text ≠ [] := by
  cases h with
  | blockComment h =>
    obtain ⟨body, rfl, -⟩ := h
    simp
  | @symbol s text h =>
    rcases s.spelled with ⟨c, hs, -⟩ | ⟨c, d, hs, -⟩ <;> simp [← h, hs]
  | @keyword k text h =>
    obtain ⟨c, cs, hk, -⟩ := k.spelled
    simp [← h, hk]
  | whole hne hd => exact hne
  | _ => simp

theorem Candidate.ne_nil {cs : List Char} {s : Segment} (h : Candidate cs s) : s.text ≠ [] := by
  cases h with
  | spelled h hp => exact h.ne_nil
  | openString hcs h => simp [hcs]
  | openComment hcs h => simp [hcs]
  | rejected hcs hq h => simp

theorem Candidate.begins {cs : List Char} {s : Segment} (h : Candidate cs s) :
    s.text <+: cs := by
  cases h with
  | spelled h hp => exact hp
  | openString hcs h => exact List.prefix_rfl
  | openComment hcs h => exact List.prefix_rfl
  | @rejected c rest hcs hq h => exact ⟨rest, hcs.symm⟩

theorem FitsHead.unique {shape shape' : Shape} {c : Char} {cs : List Char}
    (h : FitsHead shape c cs) (h' : FitsHead shape' c cs) : shape = shape' := by
  unfold FitsHead at h h'
  split at h
  · simp_all
  split at h
  · simp_all
  split at h
  · simp_all
  split at h
  · obtain ⟨content, rfl, -, rfl⟩ := h
    simp_all
  rename_i hb hn hd hq
  simp only [hb, hn, hd, hq, if_false] at h'
  rcases h with ⟨s, hs, rfl⟩ | ⟨hc, rfl⟩ <;> rcases h' with ⟨s', hs', rfl⟩ | ⟨hc', rfl⟩
  · rw [Symbol.eq_of_spelling_eq (hs.trans hs'.symm)]
  · obtain ⟨d, body, hbody⟩ := hc'.exists_eq
    exact absurd (hs.trans hbody) (s.spelling_ne_slash d body)
  · obtain ⟨d, body, hbody⟩ := hc.exists_eq
    exact absurd (hs'.trans hbody) (s'.spelling_ne_slash d body)
  · rfl

/-- The text of a segment decides its shape. -/
theorem Spells.unique {shape shape' : Shape} {text : List Char} (h : Spells shape text)
    (h' : Spells shape' text) : shape = shape' := by
  cases text with
  | nil => exact absurd rfl h.ne_nil
  | cons c cs => exact (h.fitsHead rfl).unique (h'.fitsHead rfl)

theorem Candidate.eq_of_spelled {cs : List Char} {s s' : Segment} (hs : Spells s.shape s.text)
    (hp : s.text <+: cs) (hs' : Candidate cs s') (h : s.text = s'.text) : s = s' := by
  obtain ⟨shape, text⟩ := s
  cases hs' with
  | @spelled s' hs' hp' =>
    obtain ⟨shape', text'⟩ := s'
    obtain rfl : text = text' := h
    obtain rfl : shape = shape' := hs.unique hs'
    rfl
  | openString hcs hcontent =>
    obtain ⟨content, hquote, -⟩ := hs.fitsHead (h.trans hcs)
    simp [hquote] at hcontent
  | openComment hcs hopen =>
    rcases fitsHead_of_slash.1 (hs.fitsHead (h.trans hcs)) with ⟨s, hs, -⟩ | ⟨hc, -⟩
    · exact absurd hs (s.spelling_ne_slash _ _)
    · rw [← hcs] at hc
      rcases hc with ⟨body, hbody, -⟩ | hblock
      · simp [hcs] at hbody
      · exact absurd hblock (hopen cs List.prefix_rfl)
  | rejected hcs hq hnone => exact absurd hs (hnone shape text hp)

/-- At one place no two segments have the same text. -/
theorem Candidate.eq_of_text_eq {cs : List Char} {s s' : Segment} (hs : Candidate cs s)
    (hs' : Candidate cs s') (h : s.text = s'.text) : s = s' := by
  have slash {rest : List Char} (hcs : cs = '/' :: rest)
      (hnone : ∀ shape text, text <+: cs → ¬Spells shape text) : False :=
    hnone (.token (.symbol .slash)) ['/'] (by simp [hcs]) (.symbol rfl)
  cases hs with
  | spelled hspelled hp => exact eq_of_spelled hspelled hp hs' h
  | openString hcs hcontent =>
    cases hs' with
    | spelled hspelled hp =>
      exact (eq_of_spelled hspelled hp (.openString hcs hcontent) h.symm).symm
    | openString => rfl
    | openComment hcs' => simp [hcs] at hcs'
    | rejected hcs' hq => simp_all
  | openComment hcs hopen =>
    cases hs' with
    | spelled hspelled hp =>
      exact (eq_of_spelled hspelled hp (.openComment hcs hopen) h.symm).symm
    | openString hcs' => simp [hcs] at hcs'
    | openComment => rfl
    | rejected hcs' hq hnone => exact (slash hcs hnone).elim
  | rejected hcs hq hnone =>
    cases hs' with
    | spelled hspelled hp => exact absurd hspelled (hnone _ _ hp)
    | openString hcs' => simp_all
    | openComment hcs' => exact (slash hcs' hnone).elim
    | rejected hcs' =>
      obtain ⟨rfl, -⟩ := List.cons.inj (hcs.symm.trans hcs')
      rfl

/-- Only one segment is the longest at a place. -/
theorem IsLongest.unique {cs : List Char} {s s' : Segment} (hs : IsLongest cs s)
    (hs' : IsLongest cs s') : s = s' := by
  apply hs.1.eq_of_text_eq hs'.1
  have hle := hs.2 s' hs'.1
  have hge := hs'.2 s hs.1
  have hp := List.prefix_of_prefix_length_le hs.1.begins hs'.1.begins hge
  exact hp.eq_of_length (by omega)

/-- A text can be cut in one way only. -/
theorem Division.unique {cs : List Char} {ss ss' : List Segment} (h : Division cs ss)
    (h' : Division cs ss') : ss = ss' := by
  induction h generalizing ss' with
  | nil =>
    generalize hcs : ([] : List Char) = cs at h'
    cases h' with
    | nil => rfl
    | cons hs hrest => exact absurd (List.append_eq_nil_iff.1 hcs.symm).1 hs.1.ne_nil
  | @cons s rest ss hs hrest ih =>
    generalize hcs : s.text ++ rest = cs at h'
    cases h' with
    | nil => exact absurd (List.append_eq_nil_iff.1 hcs).1 hs.1.ne_nil
    | @cons s' rest' ss' hs' hrest' =>
      rw [hcs] at hs
      obtain rfl := hs.unique hs'
      obtain rfl := List.append_cancel_left hcs
      rw [ih hrest']

end Segment

end TreeWalk

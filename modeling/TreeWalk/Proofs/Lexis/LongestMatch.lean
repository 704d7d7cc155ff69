import TreeWalk.Proofs.Lexis.Scanner
import TreeWalk.Proofs.Lexis.Spelling

/-! Scanning cuts a source into the longest segments. -/
namespace TreeWalk

namespace Segment

theorem prefix_takeWhile {p : Char → Bool} {front cs : List Char} (h : front <+: cs)
    (hp : ∀ d ∈ front, p d) : front <+: cs.takeWhile p := by
  obtain ⟨rest, rfl⟩ := h
  rw [List.takeWhile_append_of_pos hp]
  exact List.prefix_append _ _

/-- Delimiters are only taken whole. -/
theorem depth_cons {c d : Char} {front cs : List Char} (ho : ¬(c = '/' ∧ d = '*'))
    (hc : ¬(c = '*' ∧ d = '/')) (h : front <+: d :: cs) : depth (c :: front) = depth front := by
  cases front with
  | nil => rfl
  | cons e front =>
    obtain ⟨rfl, -⟩ := List.cons_prefix_cons.1 h
    rw [depth, if_neg ho, if_neg hc]

theorem depth_of_short {front : List Char} (h : front.length < 2) : depth front = 0 := by
  rcases front with _ | ⟨c, _ | ⟨d, front⟩⟩
  · rfl
  · rfl
  · simp only [List.length_cons] at h
    omega

theorem depth_eq_zero_or_exists {c d : Char} {front cs : List Char} (h : front <+: c :: d :: cs) :
    depth front = 0 ∨ ∃ front', front = c :: d :: front' ∧ front' <+: cs := by
  by_cases hlt : front.length < 2
  · exact .inl (depth_of_short hlt)
  · rcases front with _ | ⟨e, _ | ⟨f, front⟩⟩
    · simp at hlt
    · simp at hlt
    · obtain ⟨he, htail⟩ := List.cons_prefix_cons.1 h
      obtain ⟨hf, hfront⟩ := List.cons_prefix_cons.1 htail
      exact .inr ⟨front, by rw [he, hf], hfront⟩

/-- Short of the end of a block comment, something is open. -/
theorem lt_depth_of_short (n : Nat) (cs front : List Char) (hp : front <+: cs)
    (h : ∀ p, commentBody n cs = some p → front.length < p.1.length) :
    -(n + 1 : Int) < depth front := by
  fun_induction commentBody n cs generalizing front with
  | case1 n =>
    have hdepth := depth_of_short (Nat.lt_of_le_of_lt hp.length_le (by simp))
    omega
  | case2 n c =>
    have hdepth := depth_of_short (Nat.lt_of_le_of_lt hp.length_le (by simp))
    omega
  | case3 n c d cs hc ih =>
    rcases depth_eq_zero_or_exists hp with hdepth | ⟨front, rfl, hfront⟩
    · omega
    · have hdepth := ih front hfront fun p hb => by
        have hlt := h _ (by rw [hb]; rfl)
        simpa using hlt
      rw [depth, if_pos hc]
      omega
  | case4 c d cs ho hc =>
    have hdepth := depth_of_short (h _ rfl)
    omega
  | case5 c d cs ho hc n ih =>
    rcases depth_eq_zero_or_exists hp with hdepth | ⟨front, rfl, hfront⟩
    · omega
    · have hdepth := ih front hfront fun p hb => by
        have hlt := h _ (by rw [hb]; rfl)
        simpa using hlt
      rw [depth, if_neg ho, if_pos hc]
      omega
  | case6 n c d cs ho hc ih =>
    cases front with
    | nil =>
      simp only [depth]
      omega
    | cons e front =>
      obtain ⟨rfl, hfront⟩ := List.cons_prefix_cons.1 hp
      rw [depth_cons ho hc hfront]
      refine ih front hfront fun p hb => ?_
      have hlt := h _ (by rw [hb]; rfl)
      simpa using hlt

theorem depth_commentBody {n : Nat} {cs body rest : List Char}
    (h : commentBody n cs = some (body, rest)) : depth body = -(n + 1 : Int) := by
  fun_induction commentBody n cs generalizing body rest with
  | case1 => cases h
  | case2 => cases h
  | case3 n c d cs hc ih =>
    obtain ⟨⟨b, r⟩, hb, heq⟩ := Option.map_eq_some_iff.1 h
    cases heq
    have hdepth := ih hb
    rw [depth, if_pos hc]
    omega
  | case4 c d cs ho hc =>
    cases h
    rw [depth, if_neg ho, if_pos hc]
    rfl
  | case5 c d cs ho hc n ih =>
    obtain ⟨⟨b, r⟩, hb, heq⟩ := Option.map_eq_some_iff.1 h
    cases heq
    have hdepth := ih hb
    rw [depth, if_neg ho, if_pos hc]
    omega
  | case6 n c d cs ho hc ih =>
    obtain ⟨⟨b, r⟩, hb, heq⟩ := Option.map_eq_some_iff.1 h
    cases heq
    have hprefix : b <+: d :: cs := ⟨_, commentBody_append hb⟩
    rw [depth_cons ho hc hprefix]
    exact ih hb

theorem isBlockComment_of_commentBody {cs body rest : List Char}
    (h : commentBody 0 cs = some (body, rest)) : IsBlockComment ('/' :: '*' :: body) := by
  have hdepth := depth_commentBody h
  refine ⟨body, rfl, ?_, ?_⟩
  · rw [depth, if_pos ⟨rfl, rfl⟩]
    omega
  · intro front hfront hne
    have hcs : front <+: cs := hfront.trans ⟨rest, commentBody_append h⟩
    have hlt : front.length < body.length :=
      Nat.lt_of_le_of_ne hfront.length_le fun heq => hne (hfront.eq_of_length heq)
    have hopen := lt_depth_of_short 0 cs front hcs fun p hp => by
      rw [h] at hp
      cases hp
      exact hlt
    rw [depth, if_pos ⟨rfl, rfl⟩]
    omega

theorem exists_commentBody {cs body : List Char} (h : IsBlockComment ('/' :: '*' :: body))
    (hp : body <+: cs) : ∃ rest, commentBody 0 cs = some (body, rest) := by
  obtain ⟨body', hbody, hclosed, hfirst⟩ := h
  obtain rfl : body = body' := by simpa using hbody
  have hdepth (b : List Char) : depth ('/' :: '*' :: b) = depth b + 1 := if_pos ⟨rfl, rfl⟩
  rw [hdepth] at hclosed
  cases hc : commentBody 0 cs with
  | none =>
    have hopen := lt_depth_of_short 0 cs body hp fun p hb => by
      rw [hc] at hb
      cases hb
    omega
  | some p =>
    obtain ⟨b, rest⟩ := p
    have hb : b <+: cs := ⟨rest, commentBody_append hc⟩
    have hbdepth := depth_commentBody hc
    by_cases hlt : body.length < b.length
    · have hopen := lt_depth_of_short 0 cs body hp fun p hbody => by
        rw [hc] at hbody
        cases hbody
        exact hlt
      omega
    · have hprefix := List.prefix_of_prefix_length_le hb hp (Nat.le_of_not_lt hlt)
      by_cases heq : b = body
      · exact ⟨rest, by rw [heq]⟩
      · have hne := hfirst b hprefix heq
        rw [hdepth] at hne
        omega

variable {c : Char} {cs : List Char} {s : Segment}

/-- A candidate is the longest if no other spelled or open text at its place is longer. -/
theorem isLongest_of_candidate (hs : Candidate (c :: cs) s)
    (hspelled : ∀ shape front, FitsHead shape c front → front <+: cs →
      front.length < s.text.length)
    (hstring : c = '"' → '"' ∉ cs → cs.length < s.text.length)
    (hcomment : ∀ body, c = '/' → cs = '*' :: body →
      (∀ text, text <+: c :: cs → ¬IsBlockComment text) → cs.length < s.text.length) :
    IsLongest (c :: cs) s := by
  refine ⟨hs, ?_⟩
  intro s' hs'
  cases hs' with
  | @spelled s' h hp =>
    cases htext : s'.text with
    | nil => exact absurd htext h.ne_nil
    | cons d front =>
      rw [htext] at hp
      obtain ⟨rfl, hfront⟩ := List.cons_prefix_cons.1 hp
      exact hspelled s'.shape front (h.fitsHead htext) hfront
  | openString hcs h =>
    obtain ⟨hc, rfl⟩ := List.cons.inj hcs
    exact hstring hc h
  | @openComment body hcs h =>
    obtain ⟨hc, hbody⟩ := List.cons.inj hcs
    exact hcomment body hc hbody h
  | rejected hcs hq h => exact List.length_pos_iff.2 hs.ne_nil

theorem isLongest_blank (h : isBlank c) : IsLongest (c :: cs) ⟨.blank, [c]⟩ := by
  apply isLongest_of_candidate
  · exact .spelled (.blank (isBlank_iff.1 h)) (by simp)
  · intro shape front hfits hp
    rw [FitsHead, if_pos h] at hfits
    simp [hfits.2]
  · rintro rfl
    exact absurd h (by decide)
  · rintro body rfl
    exact absurd h (by decide)

theorem isLongest_word (h : startsName c) : IsLongest (c :: cs) (word c cs).1 := by
  have htake : cs.takeWhile continuesName <+: cs := List.takeWhile_prefix _
  apply isLongest_of_candidate
  · exact .spelled (spells_wordKind h of_mem_takeWhile) (List.cons_prefix_cons.2 ⟨rfl, htake⟩)
  · intro shape front hfits hp
    have hle := (prefix_takeWhile hp ((fitsHead_of_startsName h).1 hfits).2).length_le
    simp only [word, List.length_cons]
    omega
  · rintro rfl
    exact absurd h (by decide)
  · rintro body rfl
    exact absurd h (by decide)

theorem isLongest_quoted : IsLongest ('"' :: cs) (quoted cs).1 := by
  have hcontent : '"' ∉ cs.takeWhile (· ≠ '"') := by
    intro hmem
    simpa using of_mem_takeWhile _ hmem
  have hcs : cs.takeWhile (· ≠ '"') ++ cs.dropWhile (· ≠ '"') = cs :=
    List.takeWhile_append_dropWhile
  unfold quoted
  cases hdrop : cs.dropWhile (· ≠ '"') with
  | nil =>
    rw [hdrop, List.append_nil] at hcs
    simp only [hcs] at hcontent ⊢
    apply isLongest_of_candidate (.openString rfl hcontent)
    · intro shape front hfits hp
      have hle := hp.length_le
      simp only [List.length_cons]
      omega
    · intro _ _
      simp
    · intro body hc
      cases hc
  | cons quote rest =>
    obtain rfl : quote = '"' := by
      have hquote := List.head?_dropWhile_not (· ≠ '"') cs
      rw [hdrop] at hquote
      simpa using hquote
    rw [hdrop] at hcs
    apply isLongest_of_candidate
    · refine .spelled (.string hcontent) (List.cons_prefix_cons.2 ⟨rfl, rest, ?_⟩)
      show cs.takeWhile (· ≠ '"') ++ ['"'] ++ rest = cs
      rw [List.append_assoc]
      exact hcs
    · intro shape front hfits hp
      obtain ⟨content, rfl, hnone, -⟩ := hfits
      have hprefix : content <+: cs := (List.prefix_append content ['"']).trans hp
      have hle := (prefix_takeWhile (p := (· ≠ '"')) hprefix fun d hd => by
        simpa using fun he : d = '"' => hnone (he ▸ hd)).length_le
      simp only [List.length_append, List.length_cons, List.length_nil]
      omega
    · intro _ hnone
      rw [← hcs] at hnone
      simp at hnone
    · intro body hc
      cases hc

theorem fraction_cases (cs : List Char) :
    ((fraction cs).1 = [] ∧ ∀ places, places ≠ [] → (∀ d ∈ places, d.isDigit) →
      ¬('.' :: places <+: cs)) ∨
    ∃ places, (fraction cs).1 = '.' :: places ∧ places ≠ [] ∧ (∀ d ∈ places, d.isDigit) ∧
      ∀ front, (∀ d ∈ front, d.isDigit) → '.' :: front <+: cs → front <+: places := by
  unfold fraction
  split
  · rename_i point d ds
    split
    · rename_i h
      obtain ⟨rfl, hd⟩ := h
      refine .inr ⟨d :: ds.takeWhile Char.isDigit, rfl, by simp, ?_, ?_⟩
      · exact List.forall_mem_cons.2 ⟨hd, of_mem_takeWhile⟩
      · intro front hfront hp
        have hprefix := prefix_takeWhile (List.cons_prefix_cons.1 hp).2 hfront
        rwa [List.takeWhile_cons_of_pos hd] at hprefix
    · rename_i h
      refine .inl ⟨rfl, ?_⟩
      intro places hne hplaces hp
      cases places with
      | nil => exact hne rfl
      | cons e places =>
        obtain ⟨hpoint, htail⟩ := List.cons_prefix_cons.1 hp
        obtain ⟨rfl, -⟩ := List.cons_prefix_cons.1 htail
        exact h ⟨hpoint.symm, hplaces e (by simp)⟩
  · rename_i hcs
    refine .inl ⟨rfl, ?_⟩
    intro places hne hplaces hp
    obtain ⟨rest, rfl⟩ := hp
    cases places with
    | nil => exact hne rfl
    | cons e places => exact hcs '.' e (places ++ rest) rfl

theorem spells_of_isNumeral (hc : c.isDigit) (h : IsNumeral (c :: cs)) :
    Spells (.token (.number (Decimal.ofNumeral (c :: cs)).toFloat)) (c :: cs) := by
  rcases h with hd | ⟨ds, places, htext, hd, hne, hp⟩
  · rw [ofNumeral_whole hd]
    exact .whole (by simp) hd
  · have hds : ds ≠ [] := by
      rintro rfl
      obtain ⟨rfl, -⟩ := List.cons.inj htext
      exact absurd hc (by decide)
    rw [htext, ofNumeral_fractional hd]
    exact .fractional hds hd hne hp

theorem isLongest_number (h : c.isDigit) : IsLongest (c :: cs) (number c cs).1 := by
  have hdigits : ∀ d ∈ c :: cs.takeWhile Char.isDigit, d.isDigit :=
    List.forall_mem_cons.2 ⟨h, of_mem_takeWhile⟩
  have hcs : cs.takeWhile Char.isDigit ++ cs.dropWhile Char.isDigit = cs :=
    List.takeWhile_append_dropWhile
  have hprefix : (number c cs).1.text <+: c :: cs := ⟨_, number_append c cs⟩
  have hlength : (number c cs).1.text.length =
      1 + (cs.takeWhile Char.isDigit).length + (fraction (cs.dropWhile Char.isDigit)).1.length := by
    simp only [number, List.cons_append, List.length_cons, List.length_append]
    omega
  have hnumeral : IsNumeral (number c cs).1.text := by
    rcases fraction_cases (cs.dropWhile Char.isDigit) with ⟨hnil, -⟩ | ⟨places, hp, hne, hpd, -⟩
    · simp only [number, hnil, List.append_nil]
      exact .inl hdigits
    · simp only [number, hp]
      exact .inr ⟨_, places, rfl, hdigits, hne, hpd⟩
  apply isLongest_of_candidate
  · exact .spelled (spells_of_isNumeral h hnumeral) hprefix
  · intro shape front hfits hp
    rcases ((fitsHead_of_isDigit h).1 hfits).2 with hd | ⟨ds, places, hfront, hd, hne, hpd⟩
    · have hle := (prefix_takeWhile hp fun d hmem => hd d (List.mem_cons_of_mem c hmem)).length_le
      omega
    · cases ds with
      | nil =>
        obtain ⟨rfl, -⟩ := List.cons.inj hfront
        exact absurd h (by decide)
      | cons d ds =>
        obtain ⟨rfl, rfl⟩ := List.cons.inj hfront
        obtain ⟨rest, rfl⟩ := hp
        have hds : ∀ d ∈ ds, d.isDigit := fun d hmem => hd d (List.mem_cons_of_mem _ hmem)
        obtain ⟨-, -, hspan⟩ := span_of_forall hds
        obtain ⟨htake, hdrop⟩ := hspan (x := '.') (places ++ rest) rfl
        have hpoint : '.' :: places <+: '.' :: places ++ rest := List.prefix_append _ _
        have hrest : ds.append ('.' :: places) ++ rest = ds ++ '.' :: (places ++ rest) :=
          List.append_assoc ds ('.' :: places) rest
        show (ds ++ '.' :: places).length < _
        rw [hlength, hrest, htake, hdrop, ← List.cons_append]
        rcases fraction_cases ('.' :: places ++ rest) with ⟨-, hnone⟩ | ⟨ps, hps, -, -, hmax⟩
        · exact absurd hpoint (hnone places hne hpd)
        · have hle := (hmax places hpd hpoint).length_le
          simp only [hps, List.length_append, List.length_cons]
          omega
  · rintro rfl
    exact absurd h (by decide)
  · rintro body rfl
    exact absurd h (by decide)

/-- A slash spells a symbol alone, and begins a comment before another slash or a star. -/
theorem eq_nil_or_isComment {shape : Shape} {front : List Char} (h : FitsHead shape '/' front) :
    front = [] ∨ IsComment ('/' :: front) := by
  rcases fitsHead_of_slash.1 h with ⟨s, hs, -⟩ | ⟨hc, -⟩
  · cases front with
    | nil => exact .inl rfl
    | cons d front => exact absurd hs (s.spelling_ne_slash d front)
  · exact .inr hc

theorem isLongest_lineComment : IsLongest ('/' :: '/' :: cs) (lineComment ('/' :: cs)).1 := by
  have htext : (lineComment ('/' :: cs)).1 =
      ⟨.comment, '/' :: '/' :: cs.takeWhile (· ≠ '\n')⟩ := by simp [lineComment]
  have hbody : '\n' ∉ cs.takeWhile (· ≠ '\n') := by
    intro hmem
    simpa using of_mem_takeWhile _ hmem
  have hprefix : cs.takeWhile (· ≠ '\n') <+: cs := List.takeWhile_prefix _
  rw [htext]
  apply isLongest_of_candidate
  · exact .spelled (.lineComment hbody) (by simpa using hprefix)
  · intro shape front hfits hp
    rcases eq_nil_or_isComment hfits with rfl | ⟨body, heq, hnone⟩ | ⟨body, heq, -⟩
    · simp
    · obtain rfl : front = '/' :: body := (List.cons.inj heq).2
      have hle := (prefix_takeWhile (p := (· ≠ '\n')) (List.cons_prefix_cons.1 hp).2 fun d hd => by
        simpa using fun he : d = '\n' => hnone (he ▸ hd)).length_le
      simp only [List.length_cons]
      omega
    · obtain rfl : front = '*' :: body := (List.cons.inj heq).2
      exact absurd (List.cons_prefix_cons.1 hp).1 (by decide)
  · intro hc
    cases hc
  · intro body _ hcs
    cases hcs

theorem isLongest_blockComment : IsLongest ('/' :: '*' :: cs) (blockComment cs).1 := by
  unfold blockComment
  cases hc : commentBody 0 cs with
  | none =>
    have hopen : ∀ text, text <+: '/' :: '*' :: cs → ¬IsBlockComment text := by
      intro text hp h
      obtain ⟨body, rfl, -⟩ := id h
      have hbody := (List.cons_prefix_cons.1 (List.cons_prefix_cons.1 hp).2).2
      obtain ⟨rest, hrest⟩ := exists_commentBody h hbody
      rw [hc] at hrest
      cases hrest
    apply isLongest_of_candidate (.openComment rfl hopen)
    · intro shape front hfits hp
      have hle := hp.length_le
      simp only [List.length_cons] at hle ⊢
      omega
    · intro hquote
      cases hquote
    · intro body _ _ _
      simp
  | some p =>
    obtain ⟨body, rest⟩ := p
    have hblock := isBlockComment_of_commentBody hc
    have hprefix : '/' :: '*' :: body <+: '/' :: '*' :: cs := by
      have hp : body <+: cs := ⟨rest, commentBody_append hc⟩
      simpa using hp
    apply isLongest_of_candidate (.spelled (.blockComment hblock) hprefix)
    · intro shape front hfits hp
      rcases eq_nil_or_isComment hfits with rfl | ⟨b, heq, -⟩ | hfront
      · simp
      · obtain rfl : front = '/' :: b := (List.cons.inj heq).2
        exact absurd (List.cons_prefix_cons.1 hp).1 (by decide)
      · obtain ⟨b, heq, -⟩ := id hfront
        obtain rfl : front = '*' :: b := (List.cons.inj heq).2
        obtain ⟨rest', hb⟩ := exists_commentBody hfront (List.cons_prefix_cons.1 hp).2
        rw [hc] at hb
        cases hb
        simp
    · intro hquote
      cases hquote
    · intro _ _ _ hopen
      exact absurd hblock (hopen _ hprefix)

/-- What begins with none of the other characters, and opens no comment, is spelled as a symbol. -/
theorem exists_symbol {shape : Shape} {front : List Char} (hb : ¬isBlank c) (hn : ¬startsName c)
    (hd : ¬c.isDigit) (hq : c ≠ '"') (hl : ¬(c = '/' ∧ cs.head? = some '/'))
    (hs : ¬(c = '/' ∧ cs.head? = some '*')) (h : FitsHead shape c front) (hp : front <+: cs) :
    ∃ s : Symbol, s.spelling.toList = c :: front := by
  rw [FitsHead, if_neg hb, if_neg hn, if_neg hd, if_neg hq] at h
  rcases h with ⟨s, hs, -⟩ | ⟨hc, -⟩
  · exact ⟨s, hs⟩
  · obtain ⟨rest, rfl⟩ := hp
    rcases hc with ⟨body, heq, -⟩ | ⟨body, heq, -⟩
    · obtain ⟨rfl, rfl⟩ := List.cons.inj heq
      exact absurd ⟨rfl, rfl⟩ hl
    · obtain ⟨rfl, rfl⟩ := List.cons.inj heq
      exact absurd ⟨rfl, rfl⟩ hs

/-- The two ways to begin a mark: with two characters that spell a symbol, or without. -/
theorem mark_cases (c : Char) (cs : List Char) :
    (∃ d rest s, cs = d :: rest ∧ Symbol.double? c d = some s ∧
      (mark c cs).1 = ⟨.token (.symbol s), [c, d]⟩) ∨
    ((∀ d rest, cs = d :: rest → Symbol.double? c d = none) ∧
      (mark c cs).1 = match Symbol.single? c with
        | some s => ⟨.token (.symbol s), [c]⟩
        | none => ⟨.rejected c, [c]⟩) := by
  cases cs with
  | nil =>
    refine .inr ⟨fun d rest h => absurd h (by simp), ?_⟩
    simp only [mark, List.head?_nil, Option.bind_none]
    cases Symbol.single? c <;> rfl
  | cons d rest =>
    cases hd : Symbol.double? c d with
    | some s => exact .inl ⟨d, rest, s, rfl, hd, by simp [mark, hd]⟩
    | none =>
      refine .inr ⟨fun e es h => by rw [← (List.cons.inj h).1, hd], ?_⟩
      simp only [mark, List.head?_cons, Option.bind_some, hd]
      cases Symbol.single? c <;> rfl

theorem isLongest_mark (hb : ¬isBlank c) (hn : ¬startsName c) (hd : ¬c.isDigit) (hq : c ≠ '"')
    (hl : ¬(c = '/' ∧ cs.head? = some '/')) (hs : ¬(c = '/' ∧ cs.head? = some '*')) :
    IsLongest (c :: cs) (mark c cs).1 := by
  have hstring : c = '"' → '"' ∉ cs → cs.length < (mark c cs).1.text.length :=
    fun hc _ => absurd hc hq
  have hcomment : ∀ body, c = '/' → cs = '*' :: body →
      (∀ text, text <+: c :: cs → ¬IsBlockComment text) →
      cs.length < (mark c cs).1.text.length := by
    rintro body hc rfl
    exact absurd ⟨hc, rfl⟩ hs
  have hsymbol (shape front) (hfits : FitsHead shape c front) (hp : front <+: cs) :
      (front = [] ∧ ∃ s, Symbol.single? c = some s) ∨
        ∃ d s, front = [d] ∧ Symbol.double? c d = some s := by
    obtain ⟨s, hspelling⟩ := exists_symbol hb hn hd hq hl hs hfits hp
    rcases s.spelled with ⟨e, he, hsingle⟩ | ⟨e, d, he, hdouble⟩
    · obtain ⟨rfl, rfl⟩ := List.cons.inj (he.symm.trans hspelling)
      exact .inl ⟨rfl, s, hsingle⟩
    · obtain ⟨rfl, rfl⟩ := List.cons.inj (he.symm.trans hspelling)
      exact .inr ⟨d, s, rfl, hdouble⟩
  rcases mark_cases c cs with ⟨d, rest, s, rfl, hdouble, hmark⟩ | ⟨hnone, hmark⟩
  · apply isLongest_of_candidate _ _ hstring hcomment
    · rw [hmark]
      exact .spelled (.symbol (Symbol.spelling_of_double? hdouble)) (by simp)
    · intro shape front hfits hp
      rw [hmark]
      rcases hsymbol shape front hfits hp with ⟨rfl, -⟩ | ⟨e, -, rfl, -⟩ <;> simp
  · apply isLongest_of_candidate _ _ hstring hcomment
    · rw [hmark]
      cases hsingle : Symbol.single? c with
      | some s => exact .spelled (.symbol (Symbol.spelling_of_single? hsingle)) (by simp)
      | none =>
        refine .rejected rfl hq fun shape text hp h => ?_
        cases text with
        | nil => exact h.ne_nil rfl
        | cons e front =>
          obtain ⟨rfl, hfront⟩ := List.cons_prefix_cons.1 hp
          rcases hsymbol shape front (h.fitsHead rfl) hfront with ⟨-, s, hs⟩ | ⟨d, s, rfl, hdouble⟩
          · rw [hsingle] at hs
            cases hs
          · obtain ⟨rest, rfl⟩ := hfront
            rw [hnone d rest rfl] at hdouble
            cases hdouble
    · intro shape front hfits hp
      rcases hsymbol shape front hfits hp with ⟨rfl, -⟩ | ⟨d, s, rfl, hdouble⟩
      · rw [hmark]
        cases Symbol.single? c <;> simp
      · obtain ⟨rest, rfl⟩ := hp
        rw [hnone d rest rfl] at hdouble
        cases hdouble

/-- The first segment of a text is the longest one there. -/
theorem isLongest_first (c : Char) (cs : List Char) : IsLongest (c :: cs) (first c cs).1 := by
  unfold first
  by_cases hb : isBlank c
  · rw [if_pos hb]
    exact isLongest_blank hb
  rw [if_neg hb]
  by_cases hn : startsName c
  · rw [if_pos hn]
    exact isLongest_word hn
  rw [if_neg hn]
  by_cases hd : c.isDigit
  · rw [if_pos hd]
    exact isLongest_number hd
  rw [if_neg hd]
  by_cases hq : c = '"'
  · rw [if_pos hq, hq]
    exact isLongest_quoted
  rw [if_neg hq]
  by_cases hl : c = '/' ∧ cs.head? = some '/'
  · rw [if_pos hl]
    obtain ⟨rfl, hhead⟩ := hl
    obtain ⟨rest, rfl⟩ := List.head?_eq_some_iff.1 hhead
    exact isLongest_lineComment
  rw [if_neg hl]
  by_cases hs : c = '/' ∧ cs.head? = some '*'
  · rw [if_pos hs]
    obtain ⟨rfl, hhead⟩ := hs
    obtain ⟨rest, rfl⟩ := List.head?_eq_some_iff.1 hhead
    exact isLongest_blockComment
  rw [if_neg hs]
  exact isLongest_mark hb hn hd hq hl hs

theorem division_all (cs : List Char) : Division cs (all cs) := by
  fun_induction all cs with
  | case1 => exact .nil
  | case2 c cs ih =>
    have hlongest := isLongest_first c cs
    rw [← first_append c cs] at hlongest ⊢
    exact .cons hlongest ih

theorem Division.text_ne_nil {cs : List Char} {ss : List Segment} (h : Division cs ss) :
    ∀ s ∈ ss, s.text ≠ [] := by
  induction h with
  | nil => simp
  | cons hs hrest ih => exact List.forall_mem_cons.2 ⟨hs.1.ne_nil, ih⟩

/-- What a segment that begins on a line gives. A token has the segment as its lexeme, and is of the
kind that it spells; blanks and comments give nothing. -/
inductive Gives (line : Nat) : Segment → List Scanned → Prop
  | blank {text : List Char} : Gives line ⟨.blank, text⟩ []
  | comment {text : List Char} : Gives line ⟨.comment, text⟩ []
  | token {text : List Char} {t : Token} (h : Spells (.token t.kind) text)
    (hlexeme : t.lexeme.toList = text) (hline : t.line = line) :
    Gives line ⟨.token t.kind, text⟩ [.token t]
  | rejected {c : Char} {e : LexicalError} (hline : e.line = line)
    (hmessage : e.message = "Unexpected character '" ++ String.singleton c ++ "'.") :
    Gives line ⟨.rejected c, [c]⟩ [.error e]
  | openString {text : List Char} {e : LexicalError} (hline : e.line = line)
    (hmessage : e.message = "Unterminated string.") : Gives line ⟨.openString, text⟩ [.error e]
  | openComment {text : List Char} {e : LexicalError} (hline : e.line = line)
    (hmessage : e.message = "Unterminated comment.") : Gives line ⟨.openComment, text⟩ [.error e]

theorem Candidate.gives {cs : List Char} {s : Segment} (h : Candidate cs s) (line : Nat) :
    Gives line s (s.scanned? line).toList := by
  cases h with
  | @spelled s hspelled hp =>
    obtain ⟨shape, text⟩ := s
    cases shape with
    | blank => exact .blank
    | comment => exact .comment
    | token kind =>
      exact .token (t := ⟨kind, String.ofList text, line⟩) hspelled String.toList_ofList rfl
    | _ => cases hspelled
  | openString => exact .openString rfl rfl
  | openComment => exact .openComment rfl rfl
  | rejected => exact .rejected rfl rfl

/-- What segments give one after another, from the line on which the first of them begins. -/
inductive GivesAll : Nat → List Segment → List Scanned → Prop
  | nil {line : Nat} : GivesAll line [] []
  | cons {line : Nat} {s : Segment} {ss : List Segment} {found later : List Scanned}
    (h : Gives line s found) (hrest : GivesAll (line + lineFeeds s.text) ss later) :
    GivesAll line (s :: ss) (found ++ later)

/-- The segments of a division give what they are scanned as. -/
theorem Division.givesAll {cs : List Char} {ss : List Segment} (h : Division cs ss) (line : Nat) :
    GivesAll line ss (scannedFrom line ss) := by
  induction h generalizing line with
  | nil => exact .nil
  | cons hs hrest ih => exact .cons (hs.1.gives line) (ih _)

/-- What gives only tokens is scanned as them. -/
theorem Gives.eq_of_tokens {line : Nat} {s : Segment} {ts : List Token}
    (h : Gives line s (ts.map .token)) : (s.scanned? line).toList = ts.map .token := by
  generalize hfound : ts.map Scanned.token = found at h
  cases h with
  | blank | comment => rfl
  | token hspells hlexeme hline =>
    subst hline hlexeme
    simp [scanned?]
  | rejected | openString | openComment => simp [List.map_eq_cons_iff] at hfound

theorem GivesAll.eq_of_tokens {line : Nat} {ss : List Segment} {ts : List Token}
    (h : GivesAll line ss (ts.map .token)) : scannedFrom line ss = ts.map .token := by
  generalize hfound : ts.map Scanned.token = found at h
  induction h generalizing ts with
  | nil => rfl
  | cons hs hrest ih =>
    obtain ⟨front, back, rfl, rfl, rfl⟩ := List.map_eq_append_iff.1 hfound
    rw [scannedFrom, hs.eq_of_tokens, ih rfl]

end Segment

/-- A source can be cut in one way into the longest segments, and no character is lost. Scanning
gives what these segments give one after another, from line 1 on, and the marker of the end on the
line after all line feeds. A counter of 32 bits for the open comments is enough in a source of fewer
characters than there are words of 32 bits. -/
theorem scanToEnd_longest (source : String) :
    ∃ ss, Segment.Division source.toList ss ∧
      (∀ ss', Segment.Division source.toList ss' → ss' = ss) ∧
      ss.flatMap Segment.text = source.toList ∧ (∀ s ∈ ss, s.text ≠ []) ∧
      (∃ given, Segment.GivesAll 1 ss given ∧
        scanToEnd source = given ++ [.token ⟨.endOfFile, "", 1 + lineFeeds source.toList⟩]) ∧
      (source.length < UInt32.size → scanHolding word32 source = scanToEnd source) := by
  have hdivision := Segment.division_all source.toList
  refine ⟨Segment.all source.toList, hdivision, fun ss' h => h.unique hdivision,
    Segment.flatMap_text_all _, hdivision.text_ne_nil, ⟨_, hdivision.givesAll 1, ?_⟩,
    scanHolding_word32⟩
  rw [scanToEnd_eq, scan_eq, endToken_eq]

end TreeWalk

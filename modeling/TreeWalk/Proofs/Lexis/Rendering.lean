import Mathlib.Data.Set.List
import TreeWalk.Proofs.Lexis.Layout

/-! Writing tokens down. Tokens that are written one after the other, with whitespace between each
two of them, are what scanning finds again. -/
namespace TreeWalk

namespace Segment

variable {kind : Token.Kind} {text : List Char}

theorem isLongest_of_spells {shape : Shape} (h : Spells shape text) :
    IsLongest text ⟨shape, text⟩ :=
  ⟨.spelled h List.prefix_rfl, fun _ hs => hs.begins.length_le⟩

theorem all_of_spells {shape : Shape} (h : Spells shape text) : all text = [⟨shape, text⟩] := by
  have hlongest : IsLongest (text ++ []) ⟨shape, text⟩ := by
    rw [List.append_nil]
    exact isLongest_of_spells h
  have hdivision : Division (text ++ []) [⟨shape, text⟩] :=
    .cons (s := ⟨shape, text⟩) hlongest .nil
  rw [List.append_nil] at hdivision
  exact (division_all text).unique hdivision

theorem not_isLineComment_of_spells (h : Spells (.token kind) text) :
    ¬IsLineComment ⟨.token kind, text⟩ := by
  rintro ⟨body, hbody⟩
  rcases fitsHead_of_slash.1 (h.fitsHead hbody.symm) with ⟨s, hs, -⟩ | ⟨-, hcomment⟩
  · exact s.spelling_ne_slash _ _ hs
  · cases hcomment

/-- A token is cut off where a stop comes after it. -/
theorem all_append_of_spells (h : Spells (.token kind) text) {cs : List Char}
    (hstop : ∀ x ∈ cs.head?, IsStop x) :
    all (text ++ cs) = ⟨.token kind, text⟩ :: all cs := by
  have htext := all_of_spells h
  cases cs with
  | nil => rw [List.append_nil, htext, all_nil]
  | cons x cs =>
    have hclosed : ∀ s ∈ all text, s.IsClosed := by
      rw [htext]
      simp [IsClosed]
    have hlast : ∀ front s, all text = front ++ [s] → ¬s.IsLineComment := by
      intro front s hs
      have hsplit : [] ++ [⟨.token kind, text⟩] = front ++ [s] := htext.symm.trans hs
      obtain rfl := List.singleton_inj.1 (List.append_inj' hsplit rfl).2
      exact not_isLineComment_of_spells h
    rw [all_append_stop (hstop x rfl) hclosed (.inr hlast), htext, List.singleton_append]

/-- What becomes a token is spelled as that token. -/
theorem Candidate.spells_of_token {cs : List Char} {s : Segment} (h : Candidate cs s)
    (hshape : s.shape = .token kind) : Spells (.token kind) s.text := by
  cases h with
  | spelled h hp => rwa [hshape] at h
  | openString => cases hshape
  | openComment => cases hshape
  | rejected => cases hshape

theorem Division.spells_of_token {cs : List Char} {ss : List Segment} (h : Division cs ss) :
    ∀ s ∈ ss, ∀ kind, s.shape = .token kind → Spells (.token kind) s.text := by
  induction h with
  | nil => simp
  | cons hs hrest ih => exact List.forall_mem_cons.2 ⟨fun kind => hs.1.spells_of_token, ih⟩

theorem isLayout_of_blank {blanks : List Char} (h : ∀ c ∈ blanks, c ∈ [' ', '\r', '\t', '\n']) :
    IsLayout blanks := by
  induction blanks with
  | nil => exact .nil
  | cons c blanks ih =>
    obtain ⟨hc, hblanks⟩ := List.forall_mem_cons.1 h
    exact .blank hc (ih hblanks)

theorem filterMap_scanned?_all_blank {blanks : List Char}
    (h : ∀ c ∈ blanks, c ∈ [' ', '\r', '\t', '\n']) (cs : List Char) :
    (all (blanks ++ cs)).filterMap (scanned? 0) = (all cs).filterMap (scanned? 0) := by
  obtain ⟨ss, hss, hall⟩ := all_layout (isLayout_of_blank h) cs
  have hsilent : ss.filterMap (scanned? 0) = [] :=
    List.filterMap_eq_nil_iff.2 fun s hs => scanned?_of_isSilent (hss s hs) 0
  rw [hall, List.filterMap_append, hsilent, List.nil_append]

end Segment

/-- A kind of token with a text that spells it. -/
structure Lexeme where
  kind : Token.Kind
  text : List Char
  spells : Segment.Spells (.token kind) text

/-- The whitespace between two tokens. -/
structure Separator where
  text : List Char
  ne_nil : text ≠ []
  blank : ∀ c ∈ text, c ∈ [' ', '\r', '\t', '\n']

namespace Separator

def space : Separator := ⟨[' '], by simp, by simp⟩

theorem isStop_head (gap : Separator) (cs : List Char) :
    ∀ x ∈ (gap.text ++ cs).head?, Segment.IsStop x := by
  obtain ⟨c, text, htext⟩ := List.exists_cons_of_ne_nil gap.ne_nil
  have hblank := gap.blank c (by simp [htext])
  rw [htext, List.cons_append, List.head?_cons]
  rintro x ⟨⟩
  exact Segment.isStop_of_isBlank (Segment.isBlank_iff.2 hblank)

end Separator

namespace Lexeme

/-- The token that is written so, without its line. -/
def token (l : Lexeme) : Token := ⟨l.kind, String.ofList l.text, 0⟩

/-- Lexemes in order, with a separator between each two of them. -/
def render (gap : Nat → Separator) : List Lexeme → List Char
  | [] => []
  | [l] => l.text
  | l :: m :: rest => l.text ++ ((gap 0).text ++ render (fun i => gap (i + 1)) (m :: rest))

theorem scanned?_segment (l : Lexeme) :
    Segment.scanned? 0 ⟨.token l.kind, l.text⟩ = some (.token l.token) := rfl

/-- Between separators every lexeme is scanned as itself. What comes after the last one is scanned
as if it stood alone. -/
theorem filterMap_scanned?_all_render (gap : Nat → Separator) (lexemes : List Lexeme)
    {cs : List Char} (hstop : ∀ x ∈ cs.head?, Segment.IsStop x) :
    (Segment.all (render gap lexemes ++ cs)).filterMap (Segment.scanned? 0) =
      lexemes.map (Scanned.token ∘ token) ++ (Segment.all cs).filterMap (Segment.scanned? 0) := by
  induction lexemes generalizing gap with
  | nil => rfl
  | cons l lexemes ih =>
    cases lexemes with
    | nil =>
      rw [render, Segment.all_append_of_spells l.spells hstop, List.filterMap_cons,
        scanned?_segment]
      rfl
    | cons m rest =>
      rw [render, List.append_assoc, List.append_assoc,
        Segment.all_append_of_spells l.spells ((gap 0).isStop_head _), List.filterMap_cons,
        scanned?_segment, Segment.filterMap_scanned?_all_blank (gap 0).blank, ih]
      rfl

end Lexeme

/-- The marker of the end of a source, without its line. -/
def endMarker : Token := ⟨.endOfFile, "", 0⟩

theorem unlined_scanToEnd_of_render {source : String} {gap : Nat → Separator}
    {lexemes : List Lexeme} {blanks : List Char} (hblanks : ∀ c ∈ blanks, c = ' ')
    (h : source.toList = Lexeme.render gap lexemes ++ blanks) :
    (scanToEnd source).map Scanned.unlined =
      (lexemes.map Lexeme.token ++ [endMarker]).map .token := by
  have hstop : ∀ x ∈ blanks.head?, Segment.IsStop x := by
    intro x hx
    obtain rfl := hblanks x (List.mem_of_mem_head? hx)
    decide
  have hspaces : ∀ c ∈ blanks, c ∈ [' ', '\r', '\t', '\n'] := by
    intro c hc
    simp [hblanks c hc]
  have hsilent := Segment.filterMap_scanned?_all_blank hspaces []
  rw [List.append_nil, Segment.all_nil, List.filterMap_nil] at hsilent
  rw [scanToEnd_eq, scan_eq, List.map_append, Segment.unlined_scannedFrom, h,
    Lexeme.filterMap_scanned?_all_render gap lexemes hstop, hsilent, List.append_nil,
    List.map_append, List.map_map]
  rfl

/-- The tokens of a source are spelled by lexemes, whatever the source is. -/
theorem exists_lexemes (source : String) :
    ∃ lexemes : List Lexeme,
      lexemes.map Lexeme.token = (innerTokensOf source).map Token.unlined := by
  have hrange : (innerTokensOf source).map Token.unlined ∈ Set.range (List.map Lexeme.token) := by
    rw [Set.range_list_map, innerTokensOf, ← Scanned.filterMap_map Scanned.token?_unlined, scan_eq,
      Segment.unlined_scannedFrom]
    intro t ht
    obtain ⟨x, hx, htoken⟩ := List.mem_filterMap.1 ht
    obtain ⟨s, hs, hscanned⟩ := List.mem_filterMap.1 hx
    have hspells := (Segment.division_all source.toList).spells_of_token s hs
    cases hshape : s.shape with
    | token kind =>
      refine ⟨⟨kind, s.text, hspells kind hshape⟩, ?_⟩
      simp only [Segment.scanned?, hshape, Option.some.injEq] at hscanned
      rw [← hscanned] at htoken
      exact Option.some.inj htoken
    | blank | comment => simp [Segment.scanned?, hshape] at hscanned
    | rejected | openString | openComment =>
      simp only [Segment.scanned?, hshape, Option.some.injEq] at hscanned
      rw [← hscanned] at htoken
      cases htoken
  exact hrange

theorem spells_of_mem_innerTokensOf {source : String} {t : Token} (h : t ∈ innerTokensOf source) :
    Segment.Spells (.token t.kind) t.lexeme.toList := by
  obtain ⟨lexemes, hlexemes⟩ := exists_lexemes source
  have hunlined : t.unlined ∈ lexemes.map Lexeme.token := hlexemes ▸ List.mem_map_of_mem h
  obtain ⟨l, -, hl⟩ := List.mem_map.1 hunlined
  have hkind : l.kind = t.kind := congrArg Token.kind hl
  have htext : String.ofList l.text = t.lexeme := congrArg Token.lexeme hl
  rw [← hkind, ← htext, String.toList_ofList]
  exact l.spells

/-- Names and symbols stand on one line. -/
theorem Segment.Spells.lineFeed_not_mem {kind : Token.Kind} {text : List Char}
    (h : Spells (.token kind) text) (hkind : kind = .identifier ∨ ∃ s, kind = .symbol s) :
    '\n' ∉ text := by
  have hblank : isBlank '\n' := by decide
  cases h with
  | @symbol s text h =>
    rw [← h]
    cases s <;> decide
  | @name c word hc hw hk =>
    have hcontinues : ∀ d ∈ c :: word, continuesName d := by
      refine List.forall_mem_cons.2 ⟨?_, hw⟩
      simp [continuesName, hc]
    intro hmem
    rcases Bool.or_eq_true_iff.1 (hcontinues _ hmem) with hname | hdigit
    · exact not_isBlank_of_startsName hname hblank
    · exact not_isBlank_of_isDigit hdigit hblank
  | _ => simp at hkind

/-- The texts of tokens with single spaces between them. -/
def respaced (tokens : List Token) : String := " ".intercalate (tokens.map Token.lexeme)

theorem respaced_unlined (tokens : List Token) :
    respaced (tokens.map Token.unlined) = respaced tokens := by
  rw [respaced, List.map_map]
  rfl

theorem toList_respaced (lexemes : List Lexeme) :
    (respaced (lexemes.map Lexeme.token)).toList = Lexeme.render (fun _ => .space) lexemes := by
  rw [respaced, String.toList_intercalate]
  induction lexemes with
  | nil => rfl
  | cons l lexemes ih =>
    cases lexemes with
    | nil => simp [Lexeme.render, Lexeme.token]
    | cons m rest =>
      simp only [List.map_cons] at ih
      simp only [List.map_cons, List.intercalate_cons_cons, ih, Lexeme.render, List.append_assoc]
      simp [Lexeme.token, Separator.space]

/-- The marker of the end adds at most a space. -/
theorem exists_respaced_endMarker (tokens : List Token) :
    ∃ blanks : List Char, (∀ c ∈ blanks, c = ' ') ∧
      (respaced (tokens ++ [endMarker])).toList = (respaced tokens).toList ++ blanks := by
  by_cases htokens : tokens = []
  · exact ⟨[], by simp, by simp [htokens, respaced, endMarker]⟩
  · refine ⟨[' '], by simp, ?_⟩
    have hne : tokens.map Token.lexeme ≠ [] := by simpa using htokens
    rw [respaced, List.map_append, String.intercalate_append_of_ne_nil hne (by simp)]
    simp [respaced, endMarker]

/-- Lexemes of any tokens, with any whitespace between them, are scanned without an error as these
tokens. And what is scanned as tokens in any source is scanned as the same tokens from their texts
with single spaces between them, with the empty text of the source's end or without it. -/
theorem scan_render :
    (∀ (gap : Nat → Separator) (lexemes : List Lexeme),
      (scanToEnd (String.ofList (Lexeme.render gap lexemes))).map Scanned.unlined =
        (lexemes.map Lexeme.token ++ [endMarker]).map .token) ∧
    ∀ source : String,
      (scanToEnd (respaced (tokensOf source))).map Scanned.unlined =
        ((tokensOf source).map Token.unlined).map .token ∧
      (scanToEnd (respaced (innerTokensOf source))).map Scanned.unlined =
        ((tokensOf source).map Token.unlined).map .token := by
  refine ⟨fun gap lexemes => ?_, fun source => ?_⟩
  · have htext : (String.ofList (Lexeme.render gap lexemes)).toList =
        Lexeme.render gap lexemes ++ [] := by
      rw [String.toList_ofList, List.append_nil]
    exact unlined_scanToEnd_of_render (by simp) htext
  · obtain ⟨lexemes, hlexemes⟩ := exists_lexemes source
    have htokens : (tokensOf source).map Token.unlined =
        lexemes.map Lexeme.token ++ [endMarker] := by
      rw [tokensOf_eq, List.map_append, hlexemes]
      rfl
    rw [← respaced_unlined, ← respaced_unlined (innerTokensOf source), htokens, ← hlexemes]
    obtain ⟨blanks, hblanks, hend⟩ := exists_respaced_endMarker (lexemes.map Lexeme.token)
    rw [toList_respaced] at hend
    have htext : (respaced (lexemes.map Lexeme.token)).toList =
        Lexeme.render (fun _ => .space) lexemes ++ [] := by
      rw [toList_respaced, List.append_nil]
    exact ⟨unlined_scanToEnd_of_render hblanks hend, unlined_scanToEnd_of_render (by simp) htext⟩

end TreeWalk

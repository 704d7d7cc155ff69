import Mathlib.Data.List.Forall2
import TreeWalk.Proofs.Grammar.Viable

/-! Assignments to what is no name. Each is noted once, at its equals sign and after those in its
sides; its left side then stands for it. Statements that break off have the notes of the assignments
that they complete. -/
namespace TreeWalk

namespace Grammar

open Piece

namespace Derivation

/-- The tokens and phrases that a derivation is directly made of. -/
def parts : {p : Phrase} → Derivation p → List Piece
  | _, plain e => [phrase e]
  | _, assign left equals value => [phrase left, token equals.val, phrase value]
  | _, chain _ first more => [phrase first, phrase more]
  | _, done => []
  | _, link op right more => [token op.val, phrase right, phrase more]
  | _, signed sign right => [token sign.val, phrase right]
  | _, primary e => [phrase e]
  | _, literal t _ _ => [token t]
  | _, reference name => [token name.val]
  | _, grouping opening inner closing => [token opening.val, phrase inner, token closing.val]

theorem spell_parts {p : Phrase} (d : Derivation p) : spell d.parts = d.tokens := by
  cases d <;> simp [parts, tokens]

def IsAssign : {p : Phrase} → Derivation p → Prop
  | _, assign _ _ _ => True
  | _, _ => False

theorem notes_eq_parts {p : Phrase} {d : Derivation p} (h : ¬d.IsAssign) :
    d.notes = complaints d.parts := by
  cases d with
  | assign left equals value => exact absurd trivial h
  | _ => simp [parts, notes]

/-- The same phrase, but in the place of each assignment to what is no name its left side. -/
def mended : {p : Phrase} → Derivation p → Derivation p
  | _, plain e => plain e.mended
  | _, assign left equals value =>
    match target? left.tokens with
    | some _ => assign left equals value.mended
    | none => plain left.mended
  | _, chain ht first more => chain ht first.mended more.mended
  | _, done => done
  | _, link op right more => link op right.mended more.mended
  | _, signed sign right => signed sign right.mended
  | _, primary e => primary e.mended
  | _, literal t v h => literal t v h
  | _, reference name => reference name
  | _, grouping opening inner closing => grouping opening inner.mended closing

end Derivation

/-- In pieces in a row there is an assignment with the given parts, at any depth. Its equals sign is
the token at the given place. -/
inductive Assigns (left : Derivation (.tier .equality)) (equals : Terminal (.symbol .equal))
    (value : Derivation .assignment) : List Piece → Nat → Prop
  | here (pieces : List Piece) :
    Assigns left equals value (phrase (.assign left equals value) :: pieces) left.tokens.length
  | inside {p : Phrase} {d : Derivation p} {n : Nat} (pieces : List Piece)
    (h : Assigns left equals value d.parts n) : Assigns left equals value (phrase d :: pieces) n
  | later {pieces : List Piece} {n : Nat} (piece : Piece) (h : Assigns left equals value pieces n) :
    Assigns left equals value (piece :: pieces) (piece.tokens.length + n)

section Assigns

variable {left left' : Derivation (.tier .equality)} {equals equals' : Terminal (.symbol .equal)}
  {value value' : Derivation .assignment} {ps qs : List Piece} {m n : Nat}

theorem Assigns.exists_spell_eq (h : Assigns left equals value ps n) :
    ∃ front back, spell ps = front ++ (left.tokens ++ equals.val :: (value.tokens ++ back)) ∧
      n = front.length + left.tokens.length := by
  induction h with
  | here pieces => exact ⟨[], spell pieces, by simp [Derivation.tokens], by simp⟩
  | @inside p d n pieces h ih =>
    obtain ⟨front, back, hspell, hn⟩ := ih
    rw [d.spell_parts] at hspell
    exact ⟨front, back ++ spell pieces, by simp [hspell], hn⟩
  | @later pieces n piece h ih =>
    obtain ⟨front, back, hspell, rfl⟩ := ih
    exact ⟨piece.tokens ++ front, back, by simp [hspell], by simp [Nat.add_assoc]⟩

theorem Assigns.getElem? (h : Assigns left equals value ps n) :
    (spell ps)[n]? = some equals.val := by
  obtain ⟨front, back, hspell, rfl⟩ := h.exists_spell_eq
  rw [hspell, ← List.append_assoc, ← List.length_append, List.getElem?_append_right (Nat.le_refl _),
    Nat.sub_self, List.getElem?_cons_zero]

theorem Assigns.le (h : Assigns left equals value ps n) : left.tokens.length ≤ n := by
  obtain ⟨front, back, -, rfl⟩ := h.exists_spell_eq
  exact Nat.le_add_left _ _

theorem Assigns.lt (h : Assigns left equals value ps n) :
    n + value.tokens.length < (spell ps).length := by
  obtain ⟨front, back, hspell, rfl⟩ := h.exists_spell_eq
  simp only [hspell, List.length_append, List.length_cons]
  omega

theorem not_assigns_nil : ¬Assigns left equals value [] n := nofun

theorem not_assigns_token (t : Token) : ¬Assigns left equals value [token t] n := by
  intro h
  cases h with
  | later _ h => exact not_assigns_nil h

theorem assigns_cons_iff (piece : Piece) (ps : List Piece) :
    Assigns left equals value (piece :: ps) n ↔ Assigns left equals value [piece] n ∨
      ∃ m, n = piece.tokens.length + m ∧ Assigns left equals value ps m := by
  constructor
  · intro h
    cases h with
    | here => exact .inl (.here [])
    | inside _ h => exact .inl (.inside [] h)
    | later _ h => exact .inr ⟨_, rfl, h⟩
  · rintro (h | ⟨m, rfl, h⟩)
    · cases h with
      | here => exact .here ps
      | inside _ h => exact .inside ps h
      | later _ h => exact absurd h not_assigns_nil
    · exact .later piece h

theorem assigns_append_iff :
    Assigns left equals value (ps ++ qs) n ↔ Assigns left equals value ps n ∨
      ∃ m, n = (spell ps).length + m ∧ Assigns left equals value qs m := by
  induction ps generalizing n with
  | nil => simp [not_assigns_nil]
  | cons piece ps ih =>
    rw [List.cons_append, assigns_cons_iff piece (ps ++ qs), assigns_cons_iff piece ps, or_assoc]
    refine or_congr_right ?_
    constructor
    · rintro ⟨m, rfl, h⟩
      rcases ih.1 h with hps | ⟨k, rfl, hqs⟩
      · exact .inl ⟨m, rfl, hps⟩
      · exact .inr ⟨k, by simp [Nat.add_assoc], hqs⟩
    · rintro (⟨m, rfl, h⟩ | ⟨k, rfl, h⟩)
      · exact ⟨m, rfl, ih.2 (.inl h)⟩
      · exact ⟨_, by simp [Nat.add_assoc], ih.2 (.inr ⟨k, rfl, h⟩)⟩

theorem assigns_phrase_iff {p : Phrase} {d : Derivation p} (hd : ¬d.IsAssign) :
    Assigns left equals value [phrase d] n ↔ Assigns left equals value d.parts n := by
  refine ⟨fun h => ?_, .inside []⟩
  cases h with
  | here => exact absurd trivial hd
  | inside _ h => exact h
  | later _ h => exact absurd h not_assigns_nil

theorem assigns_assign_iff :
    Assigns left equals value [phrase (.assign left' equals' value')] n ↔
      Assigns left equals value (Derivation.assign left' equals' value').parts n ∨
        (left = left' ∧ equals = equals' ∧ value = value') ∧ n = left'.tokens.length := by
  constructor
  · intro h
    cases h with
    | here => exact .inr ⟨⟨rfl, rfl, rfl⟩, rfl⟩
    | inside _ h => exact .inl h
    | later _ h => exact absurd h not_assigns_nil
  · rintro (h | ⟨⟨rfl, rfl, rfl⟩, rfl⟩)
    · exact .inside [] h
    · exact .here []

/-- What is assigned inside an assignment stands on one side of its equals sign. -/
theorem Assigns.aside
    (h : Assigns left equals value (Derivation.assign left' equals' value').parts n) :
    n + value.tokens.length < left'.tokens.length ∨
      left'.tokens.length + left.tokens.length < n := by
  rcases (assigns_cons_iff _ _).1 h with hleft | ⟨m, rfl, hrest⟩
  · have hlt := hleft.lt
    rw [spell_cons, spell_nil, List.append_nil] at hlt
    exact .inl hlt
  · rcases (assigns_cons_iff _ _).1 hrest with hequals | ⟨k, rfl, hvalue⟩
    · exact absurd hequals (not_assigns_token _)
    · have hle := hvalue.le
      simp only [tokens_phrase, tokens_token, List.length_singleton]
      omega

end Assigns

/-- An assignment to what is no name has its equals sign at this place. -/
def Offends (ps : List Piece) (n : Nat) : Prop :=
  ∃ left equals value, Assigns left equals value ps n ∧
    ¬∃ name : Terminal .identifier, left.tokens = [name.val]

/-- An assignment with its equals sign at `m` has the token at `n` in one of its sides, if this is
not the equals sign itself. -/
def Covers (ps : List Piece) (m n : Nat) : Prop :=
  ∃ left equals value, Assigns left equals value ps m ∧
    m ≤ n + left.tokens.length ∧ n ≤ m + value.tokens.length

/-- The complaint is about the token at this place. -/
def NotedAt (ts : List Token) (n : Nat) (complaint : SyntaxError) : Prop :=
  ∃ t, ts[n]? = some t ∧ complaint = .atToken t .invalidTarget

/-- The places of the assignments to what is no name, each once and none before one in its sides,
with a complaint about each. -/
structure Complains (ps : List Piece) (places : List Nat) (complaints : List SyntaxError) :
    Prop where
  mem_iff : ∀ n, n ∈ places ↔ Offends ps n
  nodup : places.Nodup
  ordered : places.Pairwise fun m n => ¬Covers ps m n
  noted : List.Forall₂ (NotedAt (spell ps)) places complaints

section Complains

variable {ps qs : List Piece} {places places' : List Nat} {cs cs' : List SyntaxError}

/-- The order alone keeps the places apart. -/
theorem Complains.of_ordered (hmem : ∀ n, n ∈ places ↔ Offends ps n)
    (hordered : places.Pairwise fun m n => ¬Covers ps m n)
    (hnoted : List.Forall₂ (NotedAt (spell ps)) places cs) : Complains ps places cs := by
  refine ⟨hmem, ?_, hordered, hnoted⟩
  refine hordered.imp_of_mem fun {m n} hm _ h => ?_
  rintro rfl
  obtain ⟨left, equals, value, hassigns, -⟩ := (hmem m).1 hm
  exact h ⟨left, equals, value, hassigns, Nat.le_add_right _ _, Nat.le_add_right _ _⟩

theorem Offends.lt {n : Nat} (h : Offends ps n) : n < (spell ps).length := by
  obtain ⟨left, equals, value, hassigns, -⟩ := h
  exact Nat.lt_of_le_of_lt (Nat.le_add_right _ _) hassigns.lt

theorem Covers.lt {m n : Nat} (h : Covers ps m n) : n < (spell ps).length := by
  obtain ⟨left, equals, value, hassigns, -, hle⟩ := h
  exact Nat.lt_of_le_of_lt hle hassigns.lt

theorem covers_append_iff {m n : Nat} :
    Covers (ps ++ qs) m n ↔ Covers ps m n ∨
      ∃ m' n', m = (spell ps).length + m' ∧ n = (spell ps).length + n' ∧ Covers qs m' n' := by
  simp only [Covers, assigns_append_iff]
  constructor
  · rintro ⟨left, equals, value, h | ⟨m', rfl, h⟩, hfrom, hto⟩
    · exact .inl ⟨left, equals, value, h, hfrom, hto⟩
    · have hle := h.le
      refine .inr ⟨m', n - (spell ps).length, rfl, ?_, left, equals, value, h, ?_, ?_⟩ <;> omega
  · rintro (⟨left, equals, value, h, hspan⟩ | ⟨m', n', rfl, rfl, left, equals, value, h, hspan⟩)
    · exact ⟨left, equals, value, .inl h, hspan⟩
    · exact ⟨left, equals, value, .inr ⟨m', rfl, h⟩, by omega⟩

theorem complains_of_forall_not (h : ∀ n, ¬Offends ps n) : Complains ps [] [] :=
  .of_ordered (by simp [h]) .nil .nil

theorem offends_append_iff {n : Nat} :
    Offends (ps ++ qs) n ↔ Offends ps n ∨ ∃ m, n = (spell ps).length + m ∧ Offends qs m := by
  simp only [Offends, assigns_append_iff]
  constructor
  · rintro ⟨left, equals, value, h | ⟨m, rfl, h⟩, hname⟩
    · exact .inl ⟨left, equals, value, h, hname⟩
    · exact .inr ⟨m, rfl, left, equals, value, h, hname⟩
  · rintro (⟨left, equals, value, h, hname⟩ | ⟨m, rfl, left, equals, value, h, hname⟩)
    · exact ⟨left, equals, value, .inl h, hname⟩
    · exact ⟨left, equals, value, .inr ⟨m, rfl, h⟩, hname⟩

theorem NotedAt.append_left {ts : List Token} {n : Nat} {complaint : SyntaxError}
    (h : NotedAt ts n complaint) (us : List Token) : NotedAt (ts ++ us) n complaint := by
  obtain ⟨t, ht, hcomplaint⟩ := h
  obtain ⟨hn, -⟩ := List.getElem?_eq_some_iff.1 ht
  exact ⟨t, by rw [List.getElem?_append_left hn, ht], hcomplaint⟩

theorem NotedAt.append_right {ts : List Token} {n : Nat} {complaint : SyntaxError}
    (h : NotedAt ts n complaint) (us : List Token) :
    NotedAt (us ++ ts) (us.length + n) complaint := by
  obtain ⟨t, ht, hcomplaint⟩ := h
  refine ⟨t, ?_, hcomplaint⟩
  rw [List.getElem?_append_right (Nat.le_add_right _ _), Nat.add_sub_cancel_left, ht]

/-- Pieces one after another have their complaints one after another. -/
theorem Complains.append (hps : Complains ps places cs) (hqs : Complains qs places' cs') :
    Complains (ps ++ qs) (places ++ places'.map ((spell ps).length + ·)) (cs ++ cs') := by
  have hfront {m : Nat} (hm : m ∈ places) : m < (spell ps).length := ((hps.mem_iff m).1 hm).lt
  refine .of_ordered (fun n => ?_) (List.pairwise_append.2 ⟨?_, ?_, ?_⟩) (List.rel_append ?_ ?_)
  · rw [List.mem_append, hps.mem_iff, offends_append_iff]
    refine or_congr_right ?_
    simp only [List.mem_map, hqs.mem_iff, and_comm, eq_comm]
  · refine hps.ordered.imp_of_mem fun {m n} hm _ h hcovers => ?_
    rcases covers_append_iff.1 hcovers with hcovers | ⟨m', n', rfl, -⟩
    · exact h hcovers
    · exact absurd (hfront hm) (by omega)
  · refine List.pairwise_map.2 (hqs.ordered.imp fun {m n} h hcovers => ?_)
    rcases covers_append_iff.1 hcovers with hcovers | ⟨m', n', hm, hn, hcovers⟩
    · exact absurd hcovers.lt (by omega)
    · obtain rfl := Nat.add_left_cancel hm
      obtain rfl := Nat.add_left_cancel hn
      exact h hcovers
  · intro m hm n hn hcovers
    obtain ⟨n, -, rfl⟩ := List.mem_map.1 hn
    rcases covers_append_iff.1 hcovers with hcovers | ⟨m', n', rfl, -⟩
    · exact absurd hcovers.lt (by omega)
    · exact absurd (hfront hm) (by omega)
  · rw [spell_append]
    exact hps.noted.imp fun n c h => h.append_left _
  · rw [spell_append, List.forall₂_map_left_iff]
    exact hqs.noted.imp fun n c h => h.append_right _

theorem complains_nil : Complains [] [] [] :=
  complains_of_forall_not fun _ ⟨_, _, _, h, _⟩ => not_assigns_nil h

theorem complains_token (t : Token) : Complains [token t] [] [] :=
  complains_of_forall_not fun _ ⟨_, _, _, h, _⟩ => not_assigns_token t h

theorem spell_phrase {p : Phrase} (d : Derivation p) : spell [phrase d] = spell d.parts := by
  rw [d.spell_parts, spell_cons, spell_nil, List.append_nil, tokens_phrase]

theorem Complains.phrase {p : Phrase} {d : Derivation p} (hd : ¬d.IsAssign)
    (h : Complains d.parts places cs) : Complains [phrase d] places cs := by
  refine .of_ordered (fun n => ?_) ?_ (by rw [spell_phrase]; exact h.noted)
  · simp only [h.mem_iff, Offends, assigns_phrase_iff hd]
  · simpa only [Covers, assigns_phrase_iff hd] using h.ordered

variable {left : Derivation (.tier .equality)} {equals : Terminal (.symbol .equal)}
  {value : Derivation .assignment}

theorem offends_assign_iff {n : Nat} : Offends [phrase (.assign left equals value)] n ↔
    Offends (Derivation.assign left equals value).parts n ∨
      (¬∃ name : Terminal .identifier, left.tokens = [name.val]) ∧ n = left.tokens.length := by
  simp only [Offends, assigns_assign_iff]
  constructor
  · rintro ⟨left', equals', value', h | ⟨⟨rfl, rfl, rfl⟩, rfl⟩, hname⟩
    · exact .inl ⟨left', equals', value', h, hname⟩
    · exact .inr ⟨hname, rfl⟩
  · rintro (⟨left', equals', value', h, hname⟩ | ⟨hname, rfl⟩)
    · exact ⟨left', equals', value', .inl h, hname⟩
    · exact ⟨left, equals, value, .inr ⟨⟨rfl, rfl, rfl⟩, rfl⟩, hname⟩

/-- What an assignment covers from one of its sides is in this side. -/
theorem covers_assign_iff {m n : Nat}
    (hm : Offends (Derivation.assign left equals value).parts m) :
    Covers [.phrase (.assign left equals value)] m n ↔
      Covers (Derivation.assign left equals value).parts m n ∧ n ≠ left.tokens.length := by
  obtain ⟨_, _, _, hinner, -⟩ := hm
  have hside := hinner.aside
  constructor
  · rintro ⟨left', equals', value', h, hspan⟩
    rcases assigns_assign_iff.1 h with h | ⟨-, rfl⟩
    · have haside := h.aside
      exact ⟨⟨left', equals', value', h, hspan⟩, by omega⟩
    · omega
  · rintro ⟨⟨left', equals', value', h, hspan⟩, -⟩
    exact ⟨left', equals', value', assigns_assign_iff.2 (.inl h), hspan⟩

theorem Complains.ordered_assign
    (h : Complains (Derivation.assign left equals value).parts places cs) :
    places.Pairwise fun m n => ¬Covers [.phrase (.assign left equals value)] m n := by
  refine h.ordered.imp_of_mem fun {m n} hm _ hmn hcovers => ?_
  exact hmn ((covers_assign_iff ((h.mem_iff m).1 hm)).1 hcovers).1

theorem Complains.assign_name (hname : ∃ name : Terminal .identifier, left.tokens = [name.val])
    (h : Complains (Derivation.assign left equals value).parts places cs) :
    Complains [.phrase (.assign left equals value)] places cs := by
  refine .of_ordered (fun n => ?_) h.ordered_assign (by rw [spell_phrase]; exact h.noted)
  simp only [h.mem_iff, offends_assign_iff, hname, not_true_eq_false, false_and, or_false]

/-- An assignment to what is no name is complained about last. -/
theorem Complains.assign_other (hname : ¬∃ name : Terminal .identifier, left.tokens = [name.val])
    (h : Complains (Derivation.assign left equals value).parts places cs) :
    Complains [.phrase (.assign left equals value)] (places ++ [left.tokens.length])
      (cs ++ [.atToken equals.val .invalidTarget]) := by
  refine .of_ordered (fun n => ?_) (List.pairwise_append.2 ⟨h.ordered_assign, ?_, ?_⟩)
    (List.rel_append ?_ ?_)
  · simp only [List.mem_append, List.mem_singleton, h.mem_iff, offends_assign_iff, hname,
      not_false_eq_true, true_and]
  · exact List.pairwise_singleton _ _
  · intro m hm n hn hcovers
    obtain rfl := List.mem_singleton.1 hn
    exact ((covers_assign_iff ((h.mem_iff m).1 hm)).1 hcovers).2 rfl
  · rw [spell_phrase]
    exact h.noted
  · refine .cons ⟨equals.val, ?_, rfl⟩ .nil
    exact (Assigns.here []).getElem?

end Complains

namespace Piece

/-- The notes of pieces in a row are the complaints about their assignments. -/
def AreNoted (ps : List Piece) : Prop := ∃ places, Complains ps places (complaints ps)

theorem AreNoted.cons {piece : Piece} {ps : List Piece} (hpiece : AreNoted [piece])
    (hps : AreNoted ps) : AreNoted (piece :: ps) := by
  obtain ⟨places, hpiece⟩ := hpiece
  obtain ⟨places', hps⟩ := hps
  have happend := hpiece.append hps
  rw [← complaints_append] at happend
  exact ⟨_, happend⟩

theorem areNoted_nil : AreNoted [] := ⟨[], complains_nil⟩

theorem areNoted_token (t : Token) : AreNoted [token t] := ⟨[], complains_token t⟩

theorem complaints_phrase {p : Phrase} (d : Derivation p) : complaints [phrase d] = d.notes :=
  List.append_nil _

theorem AreNoted.phrase {p : Phrase} {d : Derivation p} (hd : ¬d.IsAssign)
    (h : AreNoted d.parts) : AreNoted [phrase d] := by
  obtain ⟨places, h⟩ := h
  rw [← Derivation.notes_eq_parts hd, ← complaints_phrase] at h
  exact ⟨places, h.phrase hd⟩

theorem AreNoted.assign {left : Derivation (.tier .equality)} {equals : Terminal (.symbol .equal)}
    {value : Derivation .assignment} (h : AreNoted (Derivation.assign left equals value).parts) :
    AreNoted [.phrase (.assign left equals value)] := by
  obtain ⟨places, h⟩ := h
  cases htarget : target? left.tokens with
  | some name =>
    obtain ⟨hname, hkind⟩ := target?_eq_some_iff.1 htarget
    have hassign := h.assign_name ⟨⟨name, hkind⟩, hname⟩
    exact ⟨places, by simpa [Derivation.notes, Derivation.parts, htarget] using hassign⟩
  | none =>
    have hassign := h.assign_other (target?_eq_none_iff.1 htarget)
    exact ⟨_, by simpa [Derivation.notes, Derivation.parts, htarget] using hassign⟩

theorem areNoted_phrase {p : Phrase} (d : Derivation p) : AreNoted [phrase d] := by
  induction d with
  | plain e ih => exact .phrase id (.cons ih areNoted_nil)
  | assign left equals value ihl ihv =>
    exact .assign (.cons ihl (.cons (areNoted_token _) (.cons ihv areNoted_nil)))
  | chain ht first more ihf ihm => exact .phrase id (.cons ihf (.cons ihm areNoted_nil))
  | done => exact .phrase id areNoted_nil
  | link op right more ihr ihm =>
    exact .phrase id (.cons (areNoted_token _) (.cons ihr (.cons ihm areNoted_nil)))
  | signed sign right ih => exact .phrase id (.cons (areNoted_token _) (.cons ih areNoted_nil))
  | primary e ih => exact .phrase id (.cons ih areNoted_nil)
  | literal t v h => exact .phrase id (areNoted_token t)
  | reference name => exact .phrase id (areNoted_token _)
  | grouping opening inner closing ih =>
    exact .phrase id (.cons (areNoted_token _) (.cons ih (areNoted_token _)))

theorem areNoted (ps : List Piece) : AreNoted ps := by
  induction ps with
  | nil => exact areNoted_nil
  | cons piece ps ih =>
    refine .cons ?_ ih
    cases piece with
    | token t => exact areNoted_token t
    | phrase d => exact areNoted_phrase d

end Piece

namespace Derivation

/-- A single token has no room for an assignment. -/
theorem isProper_of_tokens_eq {p : Phrase} {d : Derivation p} {t : Token} (h : d.tokens = [t]) :
    d.IsProper := by
  obtain ⟨places, hnoted⟩ := areNoted_phrase d
  have hplaces : places = [] := by
    rw [List.eq_nil_iff_forall_not_mem]
    intro n hn
    obtain ⟨left, equals, value, hassigns, -⟩ := (hnoted.mem_iff n).1 hn
    have hpos := List.length_pos_iff.2 (left.tokens_ne_nil (by simp))
    have hle := hassigns.le
    have hlt := hassigns.lt
    simp only [spell_phrase, spell_parts, h, List.length_singleton] at hlt
    omega
  have hnil := hnoted.noted
  rw [hplaces, List.forall₂_nil_left_iff, complaints_phrase] at hnil
  exact d.notes_eq_nil_iff.1 hnil

theorem isProper_mended {p : Phrase} (d : Derivation p) : d.mended.IsProper := by
  induction d with
  | plain e ih => exact ih
  | assign left equals value ihl ihv =>
    rw [mended]
    split
    · rename_i name htarget
      obtain ⟨hname, hkind⟩ := target?_eq_some_iff.1 htarget
      exact ⟨⟨⟨name, hkind⟩, hname⟩, isProper_of_tokens_eq hname, ihv⟩
    · exact ihl
  | chain ht first more ihf ihm => exact ⟨ihf, ihm⟩
  | done => trivial
  | link op right more ihr ihm => exact ⟨ihr, ihm⟩
  | signed sign right ih => exact ih
  | primary e ih => exact ih
  | literal t v h => trivial
  | reference name => trivial
  | grouping opening inner closing ih => exact ih

theorem tree_mended {p : Phrase} (d : Derivation p) : d.mended.tree = d.tree := by
  induction d with
  | plain e ih => exact ih
  | assign left equals value ihl ihv =>
    rw [mended]
    split
    · rename_i name htarget
      simp only [tree, htarget, ihv]
    · rename_i htarget
      simp only [tree, htarget, ihl]
  | chain ht first more ihf ihm => simp only [mended, tree, ihf, ihm]
  | done => rfl
  | link op right more ihr ihm => simp only [mended, tree, ihr, ihm]
  | signed sign right ih => simp only [mended, tree, ih]
  | primary e ih => exact ih
  | literal t v h => rfl
  | reference name => rfl
  | grouping opening inner closing ih => simp only [mended, tree, ih]

end Derivation

namespace Declaration

/-- All of a declaration, its semicolon included. -/
def pieces (d : Declaration) : List Piece := d.body ++ [token d.closing.val]

def mended : Declaration → Declaration
  | declare opening name colons type initial closing =>
    declare opening name colons type (initial.map fun i => (i.1, i.2.mended)) closing
  | print opening e closing => print opening e.mended closing
  | expression e closing => expression e.mended closing

theorem spell_pieces (d : Declaration) : spell d.pieces = d.tokens := by
  rw [pieces, spell_append, d.tokens_eq, spell_cons, spell_nil, List.append_nil, tokens_token]

theorem complaints_pieces (d : Declaration) : complaints d.pieces = d.notes := by
  rw [pieces, complaints_append, d.notes_eq]
  exact List.append_nil _

theorem isProper_mended (d : Declaration) : d.mended.IsProper := by
  cases d with
  | declare opening name colons type initial closing =>
    cases initial with
    | none => trivial
    | some i => exact i.2.isProper_mended
  | print opening e closing => exact e.isProper_mended
  | expression e closing => exact e.isProper_mended

theorem tree_mended (d : Declaration) : d.mended.tree = d.tree := by
  cases d with
  | declare opening name colons type initial closing =>
    simp only [mended, tree, Option.map_map, Function.comp_def, Derivation.tree_mended]
  | print opening e closing => exact congrArg Stmt.print e.tree_mended
  | expression e closing => exact congrArg Stmt.expression e.tree_mended

end Declaration

open Program in
/-- Tokens whose kinds make up a declaration are read as one statement, the tree of their only
derivation with the left side in the place of each assignment to what is no name. Before it come the
complaints about these assignments. Where reading a statement fails, the complaints about the
assignments that were complete come directly before the error. -/
theorem invalid_targets_noted :
    (∀ (d₀ : Declaration) (ts : List Token) (ending : Terminal .endOfFile),
      ts.map Token.kind = d₀.tokens.map Token.kind →
      ∃ d : Declaration, d.tokens = ts ∧ (∀ d' : Declaration, d'.tokens = ts → d' = d) ∧
        d.mended.IsProper ∧
        ∃ places complaints, Complains d.pieces places complaints ∧
          (Program.read (ts ++ [ending.val])).items =
            complaints.map .error ++ [.stmt d.mended.tree]) ∧
    ∀ (ts us : List Token) (e : SyntaxError), Starts ts us → (Stmt.read us).result = .error e →
      ∃ before taken complaints, us = taken ++ (Stmt.read us).rest ∧
        (∃ u : Unfinished, spell u.pieces = taken) ∧
        (∀ u : Unfinished, spell u.pieces = taken →
          ∃ places, Complains u.pieces places complaints) ∧
        itemsOf (Stmt.read us) = complaints.map .error ++ [.error e] ∧
        (Program.read ts).items = before ++ itemsOf (Stmt.read us) ++
          (Program.read (following (Stmt.read us))).items := by
  constructor
  · intro d₀ ts ending hkinds
    obtain ⟨d, rfl, -⟩ := d₀.exists_relabelled hkinds
    have hend : atEnd [ending.val] := by simp [atEnd, ending.property]
    have hunique (d' : Declaration) (hd' : d'.tokens = d.tokens) : d' = d :=
      (d'.eq_of_tokens_append_eq d (congrArg (· ++ []) hd')).1
    have hread : (Program.read (d.tokens ++ [ending.val])).items = d.items := by
      have hflat := Declaration.read_flatMap_tokens [d] [ending.val]
      rw [read_of_atEnd hend, List.flatMap_singleton, List.flatMap_singleton] at hflat
      rw [hflat, Outline.after, List.append_nil]
    obtain ⟨places, hnoted⟩ := areNoted d.pieces
    refine ⟨d, rfl, hunique, d.isProper_mended, places, d.notes, ?_, ?_⟩
    · rwa [d.complaints_pieces] at hnoted
    · rw [hread, Declaration.items, d.tree_mended]
  · intro ts us e hstarts he
    obtain ⟨before, hitems⟩ := hstarts.items_eq
    obtain ⟨pieces, htaken, hnotes, u, rfl⟩ := Unfinished.breaks_read us e he
    refine ⟨before, spell u.pieces, (Stmt.read us).notes, htaken, ⟨u, rfl⟩, ?_, ?_, hitems⟩
    · intro u' hu'
      obtain ⟨places, hnoted⟩ := areNoted u'.pieces
      have hsame : complaints u'.pieces = complaints u.pieces := by
        have hread := u'.read_pieces
        rw [hu', u.read_pieces] at hread
        exact (congrArg Reading.notes hread).symm
      rw [hsame, ← hnotes] at hnoted
      exact ⟨places, hnoted⟩
    · rw [itemsOf, he]
      rfl

/-- In `true = (none = false);` the inner assignment comes first, and neither is in the tree. Where
a parenthesis follows `true = none`, its assignment is complete before the statement fails. -/
theorem invalid_targets_noted_nested :
    (∃ (d : Declaration) (places : List Nat),
      d.tokens = [⟨.keyword .trueKw, "true", 1⟩, ⟨.symbol .equal, "=", 1⟩,
        ⟨.symbol .leftParen, "(", 1⟩, ⟨.keyword .noneKw, "none", 2⟩, ⟨.symbol .equal, "=", 2⟩,
        ⟨.keyword .falseKw, "false", 2⟩, ⟨.symbol .rightParen, ")", 2⟩,
        ⟨.symbol .semicolon, ";", 2⟩] ∧
      Complains d.pieces places [.atToken ⟨.symbol .equal, "=", 2⟩ .invalidTarget,
        .atToken ⟨.symbol .equal, "=", 1⟩ .invalidTarget] ∧
      d.mended.tree = .expression (.literal (.boolean true))) ∧
    ∃ (u : Unfinished) (places : List Nat),
      spell u.pieces = [⟨.keyword .trueKw, "true", 1⟩, ⟨.symbol .equal, "=", 1⟩,
        ⟨.keyword .noneKw, "none", 1⟩] ∧
      Complains u.pieces places [.atToken ⟨.symbol .equal, "=", 1⟩ .invalidTarget] ∧
      (Program.read [⟨.keyword .trueKw, "true", 1⟩, ⟨.symbol .equal, "=", 1⟩,
        ⟨.keyword .noneKw, "none", 1⟩, ⟨.symbol .rightParen, ")", 1⟩,
        ⟨.symbol .semicolon, ";", 1⟩, ⟨.endOfFile, "", 1⟩]).items =
        [.error (.atToken ⟨.symbol .equal, "=", 1⟩ .invalidTarget),
          .error (.atToken ⟨.symbol .rightParen, ")", 1⟩ .unfinishedExpression)] := by
  have hinj (es es' : List SyntaxError) (h : es.map Item.error = es'.map Item.error) : es = es' :=
    (List.map_inj_right fun _ _ he => Item.error.inj he).1 h
  obtain ⟨hcomplete, hbroken⟩ := invalid_targets_noted
  constructor
  · let inner : Derivation .assignment :=
      .assign (.ofPrimary (.literal ⟨.keyword .noneKw, "none", 2⟩ .absent .isNone))
        ⟨⟨.symbol .equal, "=", 2⟩, rfl⟩
        (.plain (.ofPrimary (.literal ⟨.keyword .falseKw, "false", 2⟩ (.boolean false) .isFalse)))
    let d₀ : Declaration :=
      .expression
        (.assign (.ofPrimary (.literal ⟨.keyword .trueKw, "true", 1⟩ (.boolean true) .isTrue))
          ⟨⟨.symbol .equal, "=", 1⟩, rfl⟩
          (.plain (.ofPrimary (.grouping ⟨⟨.symbol .leftParen, "(", 1⟩, rfl⟩ inner
            ⟨⟨.symbol .rightParen, ")", 2⟩, rfl⟩))))
        ⟨⟨.symbol .semicolon, ";", 2⟩, rfl⟩
    obtain ⟨d, hd, -, -, places, complaints, hcomplains, hitems⟩ :=
      hcomplete d₀ d₀.tokens ⟨⟨.endOfFile, "", 2⟩, rfl⟩ rfl
    have hread : (Program.read (d₀.tokens ++ [⟨.endOfFile, "", 2⟩])).items =
        [.atToken ⟨.symbol .equal, "=", 2⟩ .invalidTarget,
          .atToken ⟨.symbol .equal, "=", 1⟩ .invalidTarget].map Item.error ++
          [.stmt (.expression (.literal (.boolean true)))] := by decide +kernel
    obtain ⟨hcomplaints, htree⟩ := List.append_inj' (hread.symm.trans hitems) rfl
    rw [← hinj _ _ hcomplaints] at hcomplains
    exact ⟨d, places, hd, hcomplains, (Item.stmt.inj (List.cons.inj htree).1).symm⟩
  · let front : List Token := [⟨.keyword .trueKw, "true", 1⟩, ⟨.symbol .equal, "=", 1⟩,
      ⟨.keyword .noneKw, "none", 1⟩]
    let rest : List Token := [⟨.symbol .rightParen, ")", 1⟩, ⟨.symbol .semicolon, ";", 1⟩,
      ⟨.endOfFile, "", 1⟩]
    have hresult : (Stmt.read (front ++ rest)).result =
        .error (.atToken ⟨.symbol .rightParen, ")", 1⟩ .unfinishedExpression) := by decide +kernel
    have hrest : (Stmt.read (front ++ rest)).rest = rest := by decide +kernel
    have hnotes : (Stmt.read (front ++ rest)).notes =
        [.atToken ⟨.symbol .equal, "=", 1⟩ .invalidTarget] := by decide +kernel
    obtain ⟨before, taken, complaints, htaken, ⟨u, hu⟩, hcomplains, hitems, -⟩ :=
      hbroken (front ++ rest) (front ++ rest) _ (.first (by decide)) hresult
    rw [hrest] at htaken
    obtain rfl := List.append_cancel_right htaken
    rw [Program.itemsOf, hresult, hnotes] at hitems
    obtain ⟨places, hplaces⟩ := hcomplains u hu
    rw [← hinj _ _ (List.append_inj' hitems rfl).1] at hplaces
    exact ⟨u, places, hu, hplaces, by decide +kernel⟩

end Grammar

end TreeWalk

import TreeWalk.Proofs.Grammar.Derivation

/-! The grammar of statements and programs, and its language. Only the kinds of the tokens decide
whether a list has a derivation, and no list has two. -/
namespace TreeWalk

namespace Grammar

inductive Declaration
  | declare (opening : Terminal (.keyword .varKw)) (name : Terminal .identifier)
      (colons : Terminal (.symbol .doubleColon)) (type : Terminal .identifier)
      (initial : Option (Terminal (.symbol .equal) × Derivation .assignment))
      (closing : Terminal (.symbol .semicolon))
  | print (opening : Terminal (.keyword .printKw)) (e : Derivation .assignment)
      (closing : Terminal (.symbol .semicolon))
  | expression (e : Derivation .assignment) (closing : Terminal (.symbol .semicolon))

namespace Declaration

def initialTokens : Option (Terminal (.symbol .equal) × Derivation .assignment) → List Token
  | none => []
  | some (equals, e) => equals.val :: e.tokens

def tokens : Declaration → List Token
  | declare opening name colons type initial closing =>
    opening.val :: name.val :: colons.val :: type.val ::
      (initialTokens initial ++ [closing.val])
  | print opening e closing => opening.val :: (e.tokens ++ [closing.val])
  | expression e closing => e.tokens ++ [closing.val]

def tree : Declaration → Stmt
  | declare _ name _ type initial _ =>
    .declare name.val type.val (initial.map fun i => i.2.tree)
  | print _ e _ => .print e.tree
  | expression e _ => .expression e.tree

def initialNotes :
    Option (Terminal (.symbol .equal) × Derivation .assignment) → List SyntaxError
  | none => []
  | some (_, e) => e.notes

def notes : Declaration → List SyntaxError
  | declare _ _ _ _ initial _ => initialNotes initial
  | print _ e _ => e.notes
  | expression e _ => e.notes

def IsProper : Declaration → Prop
  | declare _ _ _ _ (some (_, e)) _ => e.IsProper
  | declare _ _ _ _ none _ => True
  | print _ e _ => e.IsProper
  | expression e _ => e.IsProper

end Declaration

/-- A derivation of a whole program. -/
structure Sentence where
  declarations : List Declaration
  ending : Terminal .endOfFile

namespace Sentence

def tokens (s : Sentence) : List Token :=
  s.declarations.flatMap Declaration.tokens ++ [s.ending.val]

def trees (s : Sentence) : List Stmt := s.declarations.map Declaration.tree

def IsProper (s : Sentence) : Prop := ∀ d ∈ s.declarations, d.IsProper

end Sentence

/-- The grammar derives a list of kinds. -/
def Generates (kinds : List Token.Kind) : Prop :=
  ∃ s : Sentence, s.IsProper ∧ s.tokens.map Token.kind = kinds

/-- Kinds of token that expressions are made of. -/
def InExpression (k : Token.Kind) : Prop :=
  (∃ s, s ≠ .semicolon ∧ k = .symbol s) ∨ k = .identifier ∨ ∃ v, Denotes k v

theorem InExpression.inner {t : Token} (h : InExpression t.kind) : t.Inner := by
  rcases h with ⟨s, hs, ht⟩ | ht | ⟨v, hv⟩
  · simpa [Token.Inner, ht] using hs
  · simp [Token.Inner, ht]
  · constructor <;>
    · intro ht
      rw [ht] at hv
      cases hv

theorem InExpression.ne_opening {k : Token.Kind} (h : InExpression k) :
    k ≠ .keyword .varKw ∧ k ≠ .keyword .printKw := by
  rcases h with ⟨s, -, rfl⟩ | rfl | ⟨v, hv⟩
  · simp
  · simp
  · constructor <;> rintro rfl <;> cases hv

namespace Derivation

theorem inExpression {p : Phrase} (d : Derivation p) : ∀ t ∈ d.tokens, InExpression t.kind := by
  have symbol {s : Symbol} (hs : s ≠ .semicolon) (t : Terminal (.symbol s)) :
      InExpression t.val.kind := .inl ⟨s, hs, t.property⟩
  have oneOf {ss : List Symbol} (hss : .semicolon ∉ ss) (t : OneOf ss) :
      InExpression t.val.kind := by
    obtain ⟨s, hs, ht⟩ := t.property
    exact .inl ⟨s, fun he => hss (he ▸ hs), ht⟩
  induction d with
  | plain e ih => exact ih
  | assign left equals value ihl ihv =>
    exact List.forall_mem_append.2 ⟨ihl, List.forall_mem_cons.2 ⟨symbol (by simp) equals, ihv⟩⟩
  | chain ht first more ihf ihm => exact List.forall_mem_append.2 ⟨ihf, ihm⟩
  | done => simp [tokens]
  | @link t op right more ihr ihm =>
    have hop : .semicolon ∉ operators t := by cases t <;> decide
    exact List.forall_mem_cons.2 ⟨oneOf hop op, List.forall_mem_append.2 ⟨ihr, ihm⟩⟩
  | signed sign right ih => exact List.forall_mem_cons.2 ⟨oneOf (by decide) sign, ih⟩
  | primary e ih => exact ih
  | literal t v h => exact List.forall_mem_singleton.2 (.inr (.inr ⟨v, h⟩))
  | reference name => exact List.forall_mem_singleton.2 (.inr (.inl name.property))
  | grouping opening inner closing ih =>
    exact List.forall_mem_cons.2 ⟨symbol (by simp) opening,
      List.forall_mem_append.2 ⟨ih, List.forall_mem_singleton.2 (symbol (by simp) closing)⟩⟩

/-- No expression begins as a declaration or a `print` statement does. -/
theorem ne_opening (d : Derivation .assignment) {t : Token} {ts us : List Token}
    (h : d.tokens ++ us = t :: ts) : t.kind ≠ .keyword .varKw ∧ t.kind ≠ .keyword .printKw := by
  cases hd : d.tokens with
  | nil => exact absurd hd (d.tokens_ne_nil (by simp))
  | cons s ss =>
    rw [hd] at h
    obtain ⟨rfl, -⟩ := List.cons.inj h
    exact (d.inExpression s (by simp [hd])).ne_opening

theorem notes_eq_nil_iff {p : Phrase} (d : Derivation p) : d.notes = [] ↔ d.IsProper := by
  induction d with
  | plain e ih => exact ih
  | assign left equals value ihl ihv =>
    cases h : target? left.tokens with
    | some name =>
      have hname : ∃ name : Terminal .identifier, left.tokens = [name.val] :=
        ⟨⟨name, (target?_eq_some_iff.1 h).2⟩, (target?_eq_some_iff.1 h).1⟩
      simp [notes, IsProper, h, hname, ihl, ihv]
    | none =>
      have hname := target?_eq_none_iff.1 h
      simp only [notes, IsProper, h, hname, false_and, iff_false]
      simp
  | chain ht first more ihf ihm => simp [notes, IsProper, ihf, ihm]
  | done => simp [notes, IsProper]
  | link op right more ihr ihm => simp [notes, IsProper, ihr, ihm]
  | signed sign right ih => exact ih
  | primary e ih => exact ih
  | literal t v h => simp [notes, IsProper]
  | reference name => simp [notes, IsProper]
  | grouping opening inner closing ih => exact ih

/-- Only the kinds of tokens decide what the grammar derives. -/
theorem exists_relabelled {p : Phrase} (d : Derivation p) {ts : List Token}
    (h : ts.map Token.kind = d.tokens.map Token.kind) :
    ∃ d' : Derivation p, d'.tokens = ts ∧ (d.IsProper → d'.IsProper) := by
  induction d generalizing ts with
  | plain e ih =>
    obtain ⟨e', he, hp⟩ := ih h
    exact ⟨.plain e', he, hp⟩
  | assign left equals value ihl ihv =>
    obtain ⟨us, vs, rfl, hleft, hvs⟩ := List.map_eq_append_iff.1 (h.trans (List.map_append ..))
    obtain ⟨t, ws, rfl, ht, hws⟩ := List.map_eq_cons_iff.1 hvs
    obtain ⟨left', rfl, hpl⟩ := ihl hleft
    obtain ⟨value', rfl, hpv⟩ := ihv hws
    refine ⟨.assign left' ⟨t, ht.trans equals.property⟩ value', rfl, ?_⟩
    rintro ⟨⟨name, hname⟩, hl, hv⟩
    rw [hname] at hleft
    obtain ⟨t', ws', htokens, ht', hws'⟩ := List.map_eq_cons_iff.1 hleft
    rw [List.map_eq_nil_iff.1 hws'] at htokens
    exact ⟨⟨⟨t', ht'.trans name.property⟩, htokens⟩, hpl hl, hpv hv⟩
  | chain ht first more ihf ihm =>
    obtain ⟨us, vs, rfl, hus, hvs⟩ := List.map_eq_append_iff.1 (h.trans (List.map_append ..))
    obtain ⟨first', rfl, hpf⟩ := ihf hus
    obtain ⟨more', rfl, hpm⟩ := ihm hvs
    exact ⟨.chain ht first' more', rfl, fun hp => ⟨hpf hp.1, hpm hp.2⟩⟩
  | done => exact ⟨.done, (List.map_eq_nil_iff.1 h).symm, id⟩
  | link op right more ihr ihm =>
    obtain ⟨t, us, rfl, ht, hus⟩ := List.map_eq_cons_iff.1 h
    obtain ⟨vs, ws, rfl, hvs, hws⟩ := List.map_eq_append_iff.1 (hus.trans (List.map_append ..))
    obtain ⟨right', rfl, hpr⟩ := ihr hvs
    obtain ⟨more', rfl, hpm⟩ := ihm hws
    exact ⟨.link ⟨t, ht ▸ op.property⟩ right' more', rfl, fun hp => ⟨hpr hp.1, hpm hp.2⟩⟩
  | signed sign right ih =>
    obtain ⟨t, us, rfl, ht, hus⟩ := List.map_eq_cons_iff.1 h
    obtain ⟨right', rfl, hp⟩ := ih hus
    exact ⟨.signed ⟨t, ht ▸ sign.property⟩ right', rfl, hp⟩
  | primary e ih =>
    obtain ⟨e', he, hp⟩ := ih h
    exact ⟨.primary e', he, hp⟩
  | literal t v hv =>
    obtain ⟨t', us, rfl, ht, hus⟩ := List.map_eq_cons_iff.1 h
    obtain rfl := List.map_eq_nil_iff.1 hus
    exact ⟨.literal t' v (ht ▸ hv), rfl, id⟩
  | reference name =>
    obtain ⟨t, us, rfl, ht, hus⟩ := List.map_eq_cons_iff.1 h
    obtain rfl := List.map_eq_nil_iff.1 hus
    exact ⟨.reference ⟨t, ht.trans name.property⟩, rfl, id⟩
  | grouping opening inner closing ih =>
    obtain ⟨t, us, rfl, ht, hus⟩ := List.map_eq_cons_iff.1 h
    obtain ⟨vs, ws, rfl, hvs, hws⟩ := List.map_eq_append_iff.1 (hus.trans (List.map_append ..))
    obtain ⟨t', xs, rfl, ht', hxs⟩ := List.map_eq_cons_iff.1 hws
    obtain rfl := List.map_eq_nil_iff.1 hxs
    obtain ⟨inner', rfl, hp⟩ := ih hvs
    exact ⟨.grouping ⟨t, ht.trans opening.property⟩ inner' ⟨t', ht'.trans closing.property⟩, rfl,
      hp⟩

end Derivation

namespace Declaration

/-- A declaration has its semicolon last, and no other. -/
theorem exists_tokens_eq (d : Declaration) :
    ∃ (body : List Token) (closing : Terminal (.symbol .semicolon)),
      d.tokens = body ++ [closing.val] ∧ ∀ t ∈ body, t.Inner := by
  have inner {p : Phrase} (e : Derivation p) : ∀ t ∈ e.tokens, t.Inner :=
    fun t ht => (e.inExpression t ht).inner
  cases d with
  | declare opening name colons type initial closing =>
    refine ⟨opening.val :: name.val :: colons.val :: type.val :: initialTokens initial, closing,
      rfl, ?_⟩
    have hinitial : ∀ t ∈ initialTokens initial, t.Inner := by
      cases initial with
      | none => simp [initialTokens]
      | some i => exact List.forall_mem_cons.2 ⟨by simp [Token.Inner, i.1.property], inner i.2⟩
    simp only [List.forall_mem_cons, Token.Inner, opening.property, name.property,
      colons.property, type.property]
    exact ⟨by simp, by simp, by simp, by simp, hinitial⟩
  | print opening e closing =>
    exact ⟨opening.val :: e.tokens, closing, rfl,
      List.forall_mem_cons.2 ⟨by simp [Token.Inner, opening.property], inner e⟩⟩
  | expression e closing => exact ⟨e.tokens, closing, rfl, inner e⟩

theorem endOfFile_not_mem (d : Declaration) : ∀ t ∈ d.tokens, t.kind ≠ .endOfFile := by
  obtain ⟨body, closing, hd, hbody⟩ := d.exists_tokens_eq
  rw [hd]
  refine List.forall_mem_append.2 ⟨fun t ht => (hbody t ht).2, List.forall_mem_singleton.2 ?_⟩
  simp [closing.property]

theorem tokens_ne_nil (d : Declaration) : d.tokens ≠ [] := by
  obtain ⟨body, closing, hd, -⟩ := d.exists_tokens_eq
  simp [hd]

theorem notes_eq_nil_iff (d : Declaration) : d.notes = [] ↔ d.IsProper := by
  cases d with
  | declare opening name colons type initial closing =>
    cases initial with
    | none => simp [notes, initialNotes, IsProper]
    | some i => exact i.2.notes_eq_nil_iff
  | print opening e closing => exact e.notes_eq_nil_iff
  | expression e closing => exact e.notes_eq_nil_iff

theorem exists_relabelled (d : Declaration) {ts : List Token}
    (h : ts.map Token.kind = d.tokens.map Token.kind) :
    ∃ d' : Declaration, d'.tokens = ts ∧ (d.IsProper → d'.IsProper) := by
  cases d with
  | declare opening name colons type initial closing =>
    obtain ⟨t, us, rfl, ht, hus⟩ := List.map_eq_cons_iff.1 h
    obtain ⟨n, vs, rfl, hn, hvs⟩ := List.map_eq_cons_iff.1 hus
    obtain ⟨c, ws, rfl, hc, hws⟩ := List.map_eq_cons_iff.1 hvs
    obtain ⟨a, xs, rfl, ha, hxs⟩ := List.map_eq_cons_iff.1 hws
    obtain ⟨ys, zs, rfl, hys, hzs⟩ := List.map_eq_append_iff.1 (hxs.trans (List.map_append ..))
    obtain ⟨e, es, rfl, he, hes⟩ := List.map_eq_cons_iff.1 hzs
    obtain rfl := List.map_eq_nil_iff.1 hes
    cases initial with
    | none =>
      obtain rfl := List.map_eq_nil_iff.1 hys
      exact ⟨.declare ⟨t, ht.trans opening.property⟩ ⟨n, hn.trans name.property⟩
        ⟨c, hc.trans colons.property⟩ ⟨a, ha.trans type.property⟩ none
        ⟨e, he.trans closing.property⟩, rfl, id⟩
    | some i =>
      obtain ⟨q, qs, rfl, hq, hqs⟩ := List.map_eq_cons_iff.1 hys
      obtain ⟨value, rfl, hp⟩ := i.2.exists_relabelled hqs
      exact ⟨.declare ⟨t, ht.trans opening.property⟩ ⟨n, hn.trans name.property⟩
        ⟨c, hc.trans colons.property⟩ ⟨a, ha.trans type.property⟩
        (some (⟨q, hq.trans i.1.property⟩, value)) ⟨e, he.trans closing.property⟩, rfl, hp⟩
  | print opening e closing =>
    obtain ⟨t, us, rfl, ht, hus⟩ := List.map_eq_cons_iff.1 h
    obtain ⟨vs, ws, rfl, hvs, hws⟩ := List.map_eq_append_iff.1 (hus.trans (List.map_append ..))
    obtain ⟨c, cs, rfl, hc, hcs⟩ := List.map_eq_cons_iff.1 hws
    obtain rfl := List.map_eq_nil_iff.1 hcs
    obtain ⟨e', rfl, hp⟩ := e.exists_relabelled hvs
    exact ⟨.print ⟨t, ht.trans opening.property⟩ e' ⟨c, hc.trans closing.property⟩, rfl, hp⟩
  | expression e closing =>
    obtain ⟨vs, ws, rfl, hvs, hws⟩ := List.map_eq_append_iff.1 (h.trans (List.map_append ..))
    obtain ⟨c, cs, rfl, hc, hcs⟩ := List.map_eq_cons_iff.1 hws
    obtain rfl := List.map_eq_nil_iff.1 hcs
    obtain ⟨e', rfl, hp⟩ := e.exists_relabelled hvs
    exact ⟨.expression e' ⟨c, hc.trans closing.property⟩, rfl, hp⟩

theorem eq_of_initialTokens_eq
    {initial initial' : Option (Terminal (.symbol .equal) × Derivation .assignment)}
    {closing closing' : Terminal (.symbol .semicolon)} {rest rest' : List Token}
    (h : initialTokens initial ++ closing.val :: rest =
      initialTokens initial' ++ closing'.val :: rest') :
    initial = initial' ∧ closing.val :: rest = closing'.val :: rest' := by
  cases initial with
  | none =>
    cases initial' with
    | none => exact ⟨rfl, h⟩
    | some i' =>
      obtain ⟨hclosing, -⟩ := List.cons.inj h
      exact absurd hclosing (Terminal.ne closing i'.1 (by simp))
  | some i =>
    cases initial' with
    | none =>
      obtain ⟨hclosing, -⟩ := List.cons.inj h
      exact absurd hclosing (Terminal.ne i.1 closing' (by simp))
    | some i' =>
      obtain ⟨hequals, hvalue⟩ := List.cons.inj h
      obtain ⟨he, hrest⟩ := i.2.eq_of_tokens_append_eq i'.2 (Phrase.ends_semicolon closing rest)
        (Phrase.ends_semicolon closing' rest') hvalue
      exact ⟨congrArg some (Prod.ext (Subtype.ext hequals) he), hrest⟩

/-- Two declarations at one place are the same. -/
theorem eq_of_tokens_append_eq (d d' : Declaration) {rest rest' : List Token}
    (h : d.tokens ++ rest = d'.tokens ++ rest') : d = d' ∧ rest = rest' := by
  cases d with
  | declare opening name colons type initial closing =>
    cases d' with
    | declare opening' name' colons' type' initial' closing' =>
      simp only [tokens, List.cons_append, List.append_assoc, List.nil_append, List.cons.injEq] at h
      obtain ⟨hopening, hname, hcolons, htype, hinitial⟩ := h
      obtain ⟨rfl, hclosing⟩ := eq_of_initialTokens_eq hinitial
      obtain ⟨hclosing, hrest⟩ := List.cons.inj hclosing
      rw [Subtype.ext hopening, Subtype.ext hname, Subtype.ext hcolons, Subtype.ext htype,
        Subtype.ext hclosing]
      exact ⟨rfl, hrest⟩
    | print opening' e' closing' =>
      obtain ⟨hopening, -⟩ := List.cons.inj h
      exact absurd hopening (Terminal.ne opening opening' (by simp))
    | expression e' closing' =>
      rw [tokens, tokens, List.append_assoc] at h
      exact absurd opening.property (e'.ne_opening h.symm).1
  | print opening e closing =>
    cases d' with
    | declare opening' name' colons' type' initial' closing' =>
      obtain ⟨hopening, -⟩ := List.cons.inj h
      exact absurd hopening (Terminal.ne opening opening' (by simp))
    | print opening' e' closing' =>
      simp only [tokens, List.cons_append, List.append_assoc, List.nil_append, List.cons.injEq] at h
      obtain ⟨hopening, he⟩ := h
      obtain ⟨rfl, hclosing⟩ := e.eq_of_tokens_append_eq e' (Phrase.ends_semicolon closing rest)
        (Phrase.ends_semicolon closing' rest') he
      obtain ⟨hclosing, hrest⟩ := List.cons.inj hclosing
      rw [Subtype.ext hopening, Subtype.ext hclosing]
      exact ⟨rfl, hrest⟩
    | expression e' closing' =>
      rw [tokens, tokens, List.append_assoc] at h
      exact absurd opening.property (e'.ne_opening h.symm).2
  | expression e closing =>
    cases d' with
    | declare opening' name' colons' type' initial' closing' =>
      rw [tokens, tokens, List.append_assoc] at h
      exact absurd opening'.property (e.ne_opening h).1
    | print opening' e' closing' =>
      rw [tokens, tokens, List.append_assoc] at h
      exact absurd opening'.property (e.ne_opening h).2
    | expression e' closing' =>
      simp only [tokens, List.append_assoc, List.cons_append, List.nil_append] at h
      obtain ⟨rfl, hclosing⟩ := e.eq_of_tokens_append_eq e' (Phrase.ends_semicolon closing rest)
        (Phrase.ends_semicolon closing' rest') h
      obtain ⟨hclosing, hrest⟩ := List.cons.inj hclosing
      rw [Subtype.ext hclosing]
      exact ⟨rfl, hrest⟩

end Declaration

namespace Sentence

theorem exists_declarations (ds : List Declaration) {ts : List Token}
    (h : ts.map Token.kind = (ds.flatMap Declaration.tokens).map Token.kind) :
    ∃ ds' : List Declaration, ds'.flatMap Declaration.tokens = ts ∧
      ((∀ d ∈ ds, d.IsProper) → ∀ d ∈ ds', d.IsProper) := by
  induction ds generalizing ts with
  | nil => exact ⟨[], (List.map_eq_nil_iff.1 h).symm, fun _ => by simp⟩
  | cons d ds ih =>
    obtain ⟨us, vs, rfl, hus, hvs⟩ := List.map_eq_append_iff.1 (h.trans (List.map_append ..))
    obtain ⟨d', rfl, hp⟩ := d.exists_relabelled hus
    obtain ⟨ds', rfl, hps⟩ := ih hvs
    refine ⟨d' :: ds', rfl, ?_⟩
    intro hproper
    rw [List.forall_mem_cons] at hproper ⊢
    exact ⟨hp hproper.1, hps hproper.2⟩

/-- Tokens of the right kinds have a derivation. -/
theorem exists_of_generates {ts : List Token} (h : Generates (ts.map Token.kind)) :
    ∃ s : Sentence, s.IsProper ∧ s.tokens = ts := by
  obtain ⟨s, hproper, hs⟩ := h
  obtain ⟨us, vs, rfl, hus, hvs⟩ := List.map_eq_append_iff.1 (hs.symm.trans (List.map_append ..))
  obtain ⟨t, ws, rfl, ht, hws⟩ := List.map_eq_cons_iff.1 hvs
  obtain rfl := List.map_eq_nil_iff.1 hws
  obtain ⟨ds, rfl, hp⟩ := exists_declarations s.declarations hus
  exact ⟨⟨ds, ⟨t, ht.trans s.ending.property⟩⟩, hp hproper, rfl⟩

theorem generates {s : Sentence} (h : s.IsProper) : Generates (s.tokens.map Token.kind) :=
  ⟨s, h, rfl⟩

/-- No program begins with the marker of its end, unless it has no declarations. -/
theorem ending_ne (d : Declaration) (ending : Terminal .endOfFile) (ts : List Token) :
    d.tokens ++ ts ≠ [ending.val] := by
  intro h
  cases hd : d.tokens with
  | nil => exact d.tokens_ne_nil hd
  | cons t us =>
    rw [hd] at h
    obtain ⟨ht, -⟩ := List.cons.inj h
    exact d.endOfFile_not_mem t (by simp [hd]) (ht ▸ ending.property)

/-- The grammar of programs is unambiguous. -/
theorem eq_of_tokens_eq {s s' : Sentence} (h : s.tokens = s'.tokens) : s = s' := by
  obtain ⟨ds, ending⟩ := s
  obtain ⟨ds', ending'⟩ := s'
  simp only [tokens] at h
  induction ds generalizing ds' with
  | nil =>
    cases ds' with
    | nil =>
      obtain ⟨hending, -⟩ := List.cons.inj h
      rw [Subtype.ext hending]
    | cons d' ds' =>
      rw [List.flatMap_cons, List.append_assoc] at h
      exact absurd h.symm (ending_ne d' ending _)
  | cons d ds ih =>
    cases ds' with
    | nil =>
      rw [List.flatMap_cons, List.append_assoc] at h
      exact absurd h (ending_ne d ending' _)
    | cons d' ds' =>
      simp only [List.flatMap_cons, List.append_assoc] at h
      obtain ⟨rfl, hrest⟩ := d.eq_of_tokens_append_eq d' h
      obtain ⟨rfl, rfl⟩ := Sentence.mk.inj (ih ds' hrest)
      rfl

end Sentence

end Grammar

end TreeWalk

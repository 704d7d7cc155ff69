import TreeWalk.Proofs.Grammar.Program

/-! The trees that reading gives, and the tokens that it takes for them. A list of tokens is read
without errors exactly if it spells, up to its end, a program in which no operator stands below one
that binds tighter, unless there is a bracket between them. -/
namespace TreeWalk

open Grammar

namespace Expr

/-- The tokens of an expression in their order, with nothing between them. -/
inductive SpelledBy : Expr → List Token → Prop
  | assign (name : Token) (equals : Terminal (.symbol .equal)) {value : Expr} {ts : List Token}
      (hv : value.SpelledBy ts) : SpelledBy (.assign name value) (name :: equals.val :: ts)
  | binary {left right : Expr} (op : Token) {ls rs : List Token} (hl : left.SpelledBy ls)
      (hr : right.SpelledBy rs) : SpelledBy (.binary left op right) (ls ++ op :: rs)
  | grouping (opening : Terminal (.symbol .leftParen)) {inner : Expr} {ts : List Token}
      (hi : inner.SpelledBy ts) (closing : Terminal (.symbol .rightParen)) :
      SpelledBy (.grouping inner) (opening.val :: (ts ++ [closing.val]))
  | literal (t : Token) (v : Value) (h : Denotes t.kind v) : SpelledBy (.literal v) [t]
  | unary (op : Token) {right : Expr} {ts : List Token} (hr : right.SpelledBy ts) :
      SpelledBy (.unary op right) (op :: ts)
  | reference (name : Token) : SpelledBy (.reference name) [name]

/-- What needs no brackets as a chain of the given tier or inside one: its outermost operator, if it
is binary, is of that tier or a tighter one. -/
def FitsIn : Expr → Tier → Prop
  | assign _ _, _ => False
  | binary _ op _, t => ∃ u, op.kind.tier? = some u ∧ u.rank ≤ t.rank
  | grouping _, _ | literal _, _ | unary _ _, _ | reference _, _ => True

/-- Every operand fits where it stands: chains lean to the left, assignments to the right. -/
def IsLayered : Expr → Prop
  | assign name value => name.kind = .identifier ∧ value.IsLayered
  | binary left op right =>
    (∃ t, op.kind.tier? = some t ∧ left.FitsIn t ∧ right.FitsIn t.operand) ∧
      left.IsLayered ∧ right.IsLayered
  | grouping inner => inner.IsLayered
  | literal _ => True
  | unary op right => op.kind.isUnary ∧ right.FitsIn .unary ∧ right.IsLayered
  | reference name => name.kind = .identifier

/-- All spellings of a tree have the same length. -/
theorem SpelledBy.length_eq {e : Expr} {ts us : List Token} (ht : e.SpelledBy ts)
    (hu : e.SpelledBy us) : ts.length = us.length := by
  induction ht generalizing us with
  | assign name equals hv ih =>
    cases hu with
    | assign _ equals' hv' => simp [ih hv']
  | binary op hl hr ihl ihr =>
    cases hu with
    | binary _ hl' hr' => simp [ihl hl', ihr hr']
  | grouping opening hi closing ih =>
    cases hu with
    | grouping opening' hi' closing' => simp [ih hi']
  | literal t v h =>
    cases hu with
    | literal t' v' h' => rfl
  | unary op hr ih =>
    cases hu with
    | unary _ hr' => simp [ih hr']
  | reference name =>
    cases hu with
    | reference _ => rfl

end Expr

namespace Grammar

/-- The tokens spell the tree, and the tree is layered. -/
def Writes (ts : List Token) (e : Expr) : Prop := e.SpelledBy ts ∧ e.IsLayered

/-- What a proper derivation says of its tokens. Those of a tail go on from any left side. -/
def Phrase.Spells : (p : Phrase) → Derivation p → Prop
  | .assignment, d => Writes d.tokens d.tree
  | .tier t, d => Writes d.tokens d.tree ∧ d.tree.FitsIn t
  | .tail t, d => ∀ left ts, Writes ts left → left.FitsIn t →
    Writes (ts ++ d.tokens) (applyAll left d.tree) ∧ (applyAll left d.tree).FitsIn t
  | .primary, d => Writes d.tokens d.tree ∧ ∀ t, d.tree.FitsIn t

/-- The phrase has a proper derivation with these tokens and this tree. -/
def Phrase.Admits (p : Phrase) (ts : List Token) (e : p.Tree) : Prop :=
  ∃ d : Derivation p, d.IsProper ∧ d.tokens = ts ∧ d.tree = e

theorem rank_operand_le (t : Tier) : t.operand.rank ≤ t.rank := by cases t <;> decide

theorem fitsIn_of_rank_le {e : Expr} {t u : Tier} (h : e.FitsIn t) (htu : t.rank ≤ u.rank) :
    e.FitsIn u := by
  cases e with
  | assign name value => exact h
  | binary left op right =>
    obtain ⟨v, hv, hle⟩ := h
    exact ⟨v, hv, Nat.le_trans hle htu⟩
  | _ => trivial

namespace Derivation

/-- The tree of a proper derivation is layered, and spelled by its tokens. -/
theorem spells {p : Phrase} (d : Derivation p) (hd : d.IsProper) : p.Spells d := by
  induction d with
  | plain e ih => exact (ih hd).1
  | assign left equals value ihl ihv =>
    obtain ⟨⟨name, hname⟩, -, hvalue⟩ := hd
    obtain ⟨hspelled, hlayered⟩ := ihv hvalue
    have htarget : target? left.tokens = some name.val :=
      target?_eq_some_iff.2 ⟨hname, name.property⟩
    have htree : (assign left equals value).tree = .assign name.val value.tree := by
      rw [tree, htarget]
    rw [Phrase.Spells, htree, tokens, hname]
    exact ⟨.assign name.val equals hspelled, name.property, hlayered⟩
  | chain ht first more ihf ihm =>
    obtain ⟨hfirst, hfits⟩ := ihf hd.1
    exact ihm hd.2 first.tree first.tokens hfirst (fitsIn_of_rank_le hfits (rank_operand_le _))
  | done =>
    intro left ts hleft hfits
    rw [tokens, List.append_nil]
    exact ⟨hleft, hfits⟩
  | @link t op right more ihr ihm =>
    intro left ts hleft hfits
    obtain ⟨hright, hoperand⟩ := ihr hd.1
    have htier : op.val.kind.tier? = some t := tier?_eq_some_iff.2 op.property
    have hlink : Writes (ts ++ op.val :: right.tokens) (.binary left op.val right.tree) :=
      ⟨.binary op.val hleft.1 hright.1, ⟨t, htier, hfits, hoperand⟩, hleft.2, hright.2⟩
    have hmore := ihm hd.2 _ _ hlink ⟨t, htier, Nat.le_refl _⟩
    rw [tokens, ← List.cons_append, ← List.append_assoc]
    exact hmore
  | signed sign right ih =>
    obtain ⟨hright, hfits⟩ := ih hd
    exact ⟨⟨.unary sign.val hright.1, isUnary_iff.2 sign.property, hfits, hright.2⟩, trivial⟩
  | primary e ih =>
    obtain ⟨he, hfits⟩ := ih hd
    exact ⟨he, hfits .unary⟩
  | literal t v h => exact ⟨⟨.literal t v h, trivial⟩, fun _ => trivial⟩
  | reference name => exact ⟨⟨.reference name.val, name.property⟩, fun _ => trivial⟩
  | grouping opening inner closing ih =>
    obtain ⟨hspelled, hlayered⟩ := ih hd
    exact ⟨⟨.grouping opening hspelled closing, hlayered⟩, fun _ => trivial⟩

theorem admits_of_rank_le {t u : Tier} (htu : t.rank ≤ u.rank) {ts : List Token} {e : Expr}
    (h : Phrase.Admits (.tier t) ts e) : Phrase.Admits (.tier u) ts e := by
  by_cases hrank : t.rank = u.rank
  · obtain rfl : t = u := by cases t <;> cases u <;> first | rfl | cases hrank
    exact h
  have hu : u ≠ .unary := by
    rintro rfl
    exact hrank (Nat.le_zero.1 htu)
  have hoperand : t.rank ≤ u.operand.rank := by
    cases u <;> simp only [Tier.rank, Tier.operand] at htu hrank ⊢ <;> omega
  have hlt := Tier.rank_operand_lt hu
  obtain ⟨d, hd, rfl, rfl⟩ := admits_of_rank_le hoperand h
  exact ⟨.chain hu d .done, ⟨hd, trivial⟩, List.append_nil _, rfl⟩
termination_by u.rank

/-- One more operator at the end of a tail. -/
theorem exists_snoc {t : Tier} (op : OneOf (operators t)) {right : Derivation (.tier t.operand)}
    (hright : right.IsProper) (more : Derivation (.tail t)) (hmore : more.IsProper) :
    ∃ more' : Derivation (.tail t), more'.IsProper ∧
      more'.tokens = more.tokens ++ op.val :: right.tokens ∧
      ∀ left, applyAll left more'.tree = .binary (applyAll left more.tree) op.val right.tree := by
  match more with
  | done => exact ⟨link op right done, ⟨hright, trivial⟩, by simp [tokens], fun left => rfl⟩
  | link op' right' more =>
    obtain ⟨more', hproper, htokens, htree⟩ := exists_snoc op hright more hmore.2
    refine ⟨link op' right' more', ⟨hmore.1, hproper⟩, by simp [tokens, htokens], ?_⟩
    exact fun left => htree (.binary left op'.val right'.tree)

theorem admits_binary {t : Tier} (op : OneOf (operators t)) {ls rs : List Token} {l r : Expr}
    (hl : Phrase.Admits (.tier t) ls l) (hr : Phrase.Admits (.tier t.operand) rs r) :
    Phrase.Admits (.tier t) (ls ++ op.val :: rs) (.binary l op.val r) := by
  obtain ⟨right, hright, rfl, rfl⟩ := hr
  obtain ⟨left, hleft, rfl, rfl⟩ := hl
  cases left with
  | chain ht first more =>
    obtain ⟨more', hmore, htokens, htree⟩ := exists_snoc op hright more hleft.2
    refine ⟨.chain ht first more', ⟨hleft.1, hmore⟩, ?_, htree first.tree⟩
    rw [tokens, tokens, htokens, List.append_assoc]
  -- No operator is of the tier of the other two.
  | signed | primary =>
    obtain ⟨s, hs, -⟩ := op.property
    exact absurd hs (by simp [operators])

theorem admits_primary {e : Derivation .primary} (he : e.IsProper) (t : Tier) :
    Phrase.Admits (.tier t) e.tokens e.tree :=
  admits_of_rank_le (t := .unary) (Nat.zero_le _) ⟨.primary e, he, rfl, rfl⟩

theorem admits_assignment {ts : List Token} {e : Expr} (h : Phrase.Admits (.tier .equality) ts e) :
    Phrase.Admits .assignment ts e := by
  obtain ⟨d, hd, rfl, rfl⟩ := h
  exact ⟨.plain d, hd, rfl, rfl⟩

/-- The spelling of a layered tree has a proper derivation in every tier that the tree fits in, and
as an expression. -/
theorem admits_of_writes {e : Expr} {ts : List Token} (hs : e.SpelledBy ts) (hl : e.IsLayered) :
    (∀ t, e.FitsIn t → Phrase.Admits (.tier t) ts e) ∧ Phrase.Admits .assignment ts e := by
  induction hs with
  | @assign name equals value ts hv ih =>
    obtain ⟨d, hd, rfl, rfl⟩ := (ih hl.2).2
    let target : Derivation .primary := .reference ⟨name, hl.1⟩
    have htarget : target? (ofPrimary target).tokens = some name :=
      target?_eq_some_iff.2 ⟨rfl, hl.1⟩
    have hproper : (ofPrimary target).IsProper := by simp [target, IsProper, ofPrimary]
    refine ⟨fun t ht => ht.elim, .assign (.ofPrimary target) equals d, ?_, rfl, ?_⟩
    · exact ⟨⟨⟨name, hl.1⟩, rfl⟩, hproper, hd⟩
    · rw [tree, htarget]
  | @binary left right op ls rs hls hrs ihl ihr =>
    obtain ⟨⟨t, ht, hleft, hright⟩, hll, hlr⟩ := hl
    have hbinary : Phrase.Admits (.tier t) (ls ++ op :: rs) (.binary left op right) :=
      admits_binary ⟨op, tier?_eq_some_iff.1 ht⟩ ((ihl hll).1 t hleft) ((ihr hlr).1 _ hright)
    refine ⟨?_, admits_assignment (admits_of_rank_le t.rank_le hbinary)⟩
    rintro u ⟨v, hv, hle⟩
    obtain rfl : t = v := Option.some.inj (ht.symm.trans hv)
    exact admits_of_rank_le hle hbinary
  | grouping opening hi closing ih =>
    obtain ⟨d, hd, rfl, rfl⟩ := (ih hl).2
    have hgrouping := admits_primary (e := .grouping opening d closing) hd
    exact ⟨fun t _ => hgrouping t, admits_assignment (hgrouping .equality)⟩
  | literal t v h =>
    have hliteral := admits_primary (e := .literal t v h) trivial
    exact ⟨fun t _ => hliteral t, admits_assignment (hliteral .equality)⟩
  | unary op hr ih =>
    obtain ⟨hop, hfits, hlayered⟩ := hl
    obtain ⟨d, hd, rfl, rfl⟩ := (ih hlayered).1 .unary hfits
    have hsigned : Phrase.Admits (.tier .unary) (op :: d.tokens) (.unary op d.tree) :=
      ⟨.signed ⟨op, isUnary_iff.1 hop⟩ d, hd, rfl, rfl⟩
    refine ⟨fun t _ => admits_of_rank_le (Nat.zero_le _) hsigned, ?_⟩
    exact admits_assignment (admits_of_rank_le (Nat.zero_le _) hsigned)
  | reference name =>
    have hreference := admits_primary (e := .reference ⟨name, hl⟩) trivial
    exact ⟨fun t _ => hreference t, admits_assignment (hreference .equality)⟩

end Derivation

end Grammar

namespace Stmt

/-- The tokens of a statement in their order, up to its semicolon. -/
inductive SpelledBy : Stmt → List Token → Prop
  | expression {e : Expr} {ts : List Token} (he : e.SpelledBy ts)
      (closing : Terminal (.symbol .semicolon)) :
      SpelledBy (.expression e) (ts ++ [closing.val])
  | print (opening : Terminal (.keyword .printKw)) {e : Expr} {ts : List Token}
      (he : e.SpelledBy ts) (closing : Terminal (.symbol .semicolon)) :
      SpelledBy (.print e) (opening.val :: (ts ++ [closing.val]))
  | declare (opening : Terminal (.keyword .varKw)) (name : Token)
      (colons : Terminal (.symbol .doubleColon)) (type : Token)
      (equals : Terminal (.symbol .equal)) {e : Expr} {ts : List Token} (he : e.SpelledBy ts)
      (closing : Terminal (.symbol .semicolon)) :
      SpelledBy (.declare name type (some e))
        (opening.val :: name :: colons.val :: type :: equals.val :: (ts ++ [closing.val]))
  | declareOnly (opening : Terminal (.keyword .varKw)) (name : Token)
      (colons : Terminal (.symbol .doubleColon)) (type : Token)
      (closing : Terminal (.symbol .semicolon)) :
      SpelledBy (.declare name type none)
        [opening.val, name, colons.val, type, closing.val]

def IsLayered : Stmt → Prop
  | expression e | print e => e.IsLayered
  | declare name type initial =>
    name.kind = .identifier ∧ type.kind = .identifier ∧ ∀ e ∈ initial, e.IsLayered

theorem SpelledBy.length_eq {s : Stmt} {ts us : List Token} (ht : s.SpelledBy ts)
    (hu : s.SpelledBy us) : ts.length = us.length := by
  cases ht with
  | expression he closing =>
    cases hu with
    | expression he' closing' => simp [he.length_eq he']
  | print opening he closing =>
    cases hu with
    | print opening' he' closing' => simp [he.length_eq he']
  | declare opening name colons type equals he closing =>
    cases hu with
    | declare _ _ _ _ _ he' _ => simp [he.length_eq he']
  | declareOnly => cases hu; rfl

end Stmt

namespace Grammar.Declaration

theorem spells (d : Declaration) (hd : d.IsProper) :
    d.tree.SpelledBy d.tokens ∧ d.tree.IsLayered := by
  cases d with
  | declare opening name colons type initial closing =>
    cases initial with
    | none => exact ⟨.declareOnly opening name.val colons type.val closing, name.property,
        type.property, by simp⟩
    | some i =>
      obtain ⟨hspelled, hlayered⟩ := i.2.spells hd
      refine ⟨.declare opening name.val colons type.val i.1 hspelled closing, name.property,
        type.property, ?_⟩
      simpa using hlayered
  | print opening e closing =>
    obtain ⟨hspelled, hlayered⟩ := e.spells hd
    exact ⟨.print opening hspelled closing, hlayered⟩
  | expression e closing =>
    obtain ⟨hspelled, hlayered⟩ := e.spells hd
    exact ⟨.expression hspelled closing, hlayered⟩

theorem exists_of_spelled {s : Stmt} {ts : List Token} (hs : s.SpelledBy ts) (hl : s.IsLayered) :
    ∃ d : Declaration, d.IsProper ∧ d.tokens = ts ∧ d.tree = s := by
  cases hs with
  | expression he closing =>
    obtain ⟨d, hd, rfl, rfl⟩ := (Derivation.admits_of_writes he hl).2
    exact ⟨.expression d closing, hd, rfl, rfl⟩
  | print opening he closing =>
    obtain ⟨d, hd, rfl, rfl⟩ := (Derivation.admits_of_writes he hl).2
    exact ⟨.print opening d closing, hd, rfl, rfl⟩
  | declare opening name colons type equals he closing =>
    obtain ⟨hname, htype, hinitial⟩ := hl
    obtain ⟨d, hd, rfl, rfl⟩ := (Derivation.admits_of_writes he (hinitial _ rfl)).2
    exact ⟨.declare opening ⟨name, hname⟩ colons ⟨type, htype⟩ (some (equals, d))
      closing, hd, rfl, rfl⟩
  | declareOnly opening name colons type closing =>
    exact ⟨.declare opening ⟨name, hl.1⟩ colons ⟨type, hl.2.1⟩ none closing, trivial, rfl,
      rfl⟩

end Grammar.Declaration

namespace Program

/-- The statements of a program are spelled one after another. -/
inductive SpelledBy : List Stmt → List Token → Prop
  | nil : SpelledBy [] []
  | cons {s : Stmt} {program : List Stmt} {ts us : List Token} (hs : s.SpelledBy ts)
      (hp : SpelledBy program us) : SpelledBy (s :: program) (ts ++ us)

theorem SpelledBy.length_eq {program : List Stmt} {ts us : List Token} (ht : SpelledBy program ts)
    (hu : SpelledBy program us) : ts.length = us.length := by
  induction ht generalizing us with
  | nil => cases hu; rfl
  | cons hs hp ih =>
    cases hu with
    | cons hs' hp' => simp [hs.length_eq hs', ih hp']

theorem spelledBy_append_iff {ps qs : List Stmt} {ts : List Token} :
    SpelledBy (ps ++ qs) ts ↔ ∃ us vs, SpelledBy ps us ∧ SpelledBy qs vs ∧ ts = us ++ vs := by
  induction ps generalizing ts with
  | nil =>
    constructor
    · intro h
      exact ⟨[], ts, .nil, h, rfl⟩
    · rintro ⟨us, vs, hus, hvs, rfl⟩
      cases hus
      exact hvs
  | cons s ps ih =>
    constructor
    · intro h
      cases h with
      | @cons _ _ ss ts hs hp =>
        obtain ⟨us, vs, hus, hvs, rfl⟩ := ih.1 hp
        exact ⟨ss ++ us, vs, .cons hs hus, hvs, (List.append_assoc ..).symm⟩
    · rintro ⟨us, vs, hus, hvs, rfl⟩
      cases hus with
      | cons hs hp =>
        rw [List.append_assoc]
        exact .cons hs (ih.2 ⟨_, _, hp, hvs, rfl⟩)

theorem spelledBy_map_tree {ds : List Declaration} (h : ∀ d ∈ ds, d.IsProper) :
    SpelledBy (ds.map Declaration.tree) (ds.flatMap Declaration.tokens) := by
  induction ds with
  | nil => exact .nil
  | cons d ds ih =>
    obtain ⟨hd, hds⟩ := List.forall_mem_cons.1 h
    rw [List.map_cons, List.flatMap_cons]
    exact .cons (d.spells hd).1 (ih hds)

theorem exists_of_spelled {program : List Stmt} {ts : List Token} (hs : SpelledBy program ts)
    (hl : ∀ s ∈ program, s.IsLayered) :
    ∃ ds : List Declaration, (∀ d ∈ ds, d.IsProper) ∧ ds.flatMap Declaration.tokens = ts ∧
      ds.map Declaration.tree = program := by
  induction hs with
  | nil => exact ⟨[], by simp, rfl, rfl⟩
  | cons hs hp ih =>
    obtain ⟨hlayered, hlayereds⟩ := List.forall_mem_cons.1 hl
    obtain ⟨d, hd, rfl, rfl⟩ := Declaration.exists_of_spelled hs hlayered
    obtain ⟨ds, hds, rfl, rfl⟩ := ih hlayereds
    exact ⟨d :: ds, List.forall_mem_cons.2 ⟨hd, hds⟩, rfl, rfl⟩

/-- Reading gives a program and no errors exactly if the program is layered and the tokens up to
their end spell it. -/
theorem items_eq_iff {ts : List Token} {program : List Stmt} :
    (read ts).items = program.map .stmt ↔
      (∀ s ∈ program, s.IsLayered) ∧
        ∃ us rest, SpelledBy program us ∧ atEnd rest ∧ ts = us ++ rest := by
  constructor
  · intro h
    have hall : ∀ i ∈ (read ts).items, ∃ s, i = .stmt s := by
      intro i hi
      obtain ⟨s, -, rfl⟩ := List.mem_map.1 (h ▸ hi)
      exact ⟨s, rfl⟩
    obtain ⟨ds, rest, hds, rfl, hrest⟩ := Declaration.exists_of_items_stmt ts hall
    rw [Declaration.read_flatMap_tokens, read_of_atEnd hrest, Outline.after, List.append_nil,
      Declaration.flatMap_items hds] at h
    obtain rfl : ds.map Declaration.tree = program :=
      (List.map_inj_right fun _ _ => Item.stmt.inj).1 h
    refine ⟨?_, _, rest, spelledBy_map_tree hds, hrest, rfl⟩
    intro s hs
    obtain ⟨d, hd, rfl⟩ := List.mem_map.1 hs
    exact (d.spells (hds d hd)).2
  · rintro ⟨hl, us, rest, hus, hrest, rfl⟩
    obtain ⟨ds, hds, rfl, rfl⟩ := exists_of_spelled hus hl
    rw [Declaration.read_flatMap_tokens, read_of_atEnd hrest, Outline.after, List.append_nil,
      Declaration.flatMap_items hds]

end Program

end TreeWalk

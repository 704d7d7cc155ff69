import TreeWalk.Proofs.Grammar.Acceptance
import TreeWalk.Proofs.Grammar.Sentence

/-! Reading a program succeeds on the sentences of the grammar and on nothing else, and gives the
trees of their derivations. -/
namespace TreeWalk

namespace Grammar

open Reading

theorem exists_of_expect_ok {kind : Token.Kind} {cause : SyntaxError.Cause} {ts : List Token}
    {t : Token} (h : (expect kind cause ts).result = .ok t) :
    ∃ (s : Terminal kind) (us : List Token), ts = s.val :: us := by
  cases ts with
  | nil => cases h
  | cons s us =>
    rw [expect] at h
    split at h
    · rename_i hs
      exact ⟨⟨s, hs⟩, us, rfl⟩
    · cases h

theorem exists_of_finish_ok {cause : SyntaxError.Cause} {s s' : Stmt} {ts : List Token}
    (h : (Stmt.finish cause s ts).result = .ok s') :
    ∃ (closing : Terminal (.symbol .semicolon)) (us : List Token), ts = closing.val :: us := by
  obtain ⟨t, ht, -⟩ := exists_of_bind_ok h
  exact exists_of_expect_ok ht

namespace Declaration

theorem readInitial_tokens (initial : Option (Terminal (.symbol .equal) × Derivation .assignment))
    (closing : Terminal (.symbol .semicolon)) (ts : List Token) :
    Stmt.readInitial (initialTokens initial ++ closing.val :: ts) =
      ⟨initialNotes initial, .ok (initial.map fun i => i.2.tree), closing.val :: ts⟩ := by
  cases initial with
  | none =>
    have hne : closing.val.kind ≠ .symbol .equal := by simp [closing.property]
    exact if_neg hne
  | some i =>
    have hread := i.2.reads (Phrase.ends_semicolon closing ts)
    have hbind := bind_eq (f := fun e => Reading.done (some e)) hread rfl
    rw [List.append_nil] at hbind
    exact (if_pos i.1.property).trans hbind

/-- A declaration is read as what it stands for, whatever follows it. -/
theorem read_tokens (d : Declaration) (ts : List Token) :
    Stmt.read (d.tokens ++ ts) = ⟨d.notes, .ok d.tree, ts⟩ := by
  cases d with
  | declare opening name colons type initial closing =>
    have hinitial := bind_eq
      (f := fun i => Stmt.finish .unfinishedDeclaration (.declare name.val type.val i))
      (readInitial_tokens initial closing ts) (Stmt.finish_closing _ _ closing ts)
    simp only [tokens, List.cons_append, List.append_assoc, List.nil_append]
    rw [Stmt.read_declare, Stmt.readDeclaration]
    simp only [expect_terminal, done_bind]
    rw [hinitial, List.append_nil]
    rfl
  | print opening e closing =>
    have hread := bind_eq (f := fun e => Stmt.finish .unfinishedPrint (.print e))
      (e.reads (Phrase.ends_semicolon closing ts)) (Stmt.finish_closing _ _ closing ts)
    simp only [tokens, List.cons_append, List.append_assoc, List.nil_append]
    rw [Stmt.read_print, Stmt.readPrint, hread, List.append_nil]
    rfl
  | expression e closing =>
    have hread := bind_eq (f := fun e => Stmt.finish .unfinishedExpression (.expression e))
      (e.reads (Phrase.ends_semicolon closing ts)) (Stmt.finish_closing _ _ closing ts)
    simp only [tokens, List.append_assoc, List.cons_append, List.nil_append]
    rw [Stmt.read_expression fun t us h => e.ne_opening h, Stmt.readExpression, hread,
      List.append_nil]
    rfl

theorem exists_of_readInitial_ok {ts : List Token} {initial : Option Expr}
    (h : (Stmt.readInitial ts).result = .ok initial) :
    ∃ i, ts = initialTokens i ++ (Stmt.readInitial ts).rest := by
  cases ts with
  | nil => exact ⟨none, rfl⟩
  | cons t ts =>
    rw [Stmt.readInitial] at h ⊢
    split at h
    · rename_i ht
      obtain ⟨e, he, -⟩ := exists_of_bind_ok h
      obtain ⟨d, hd, -⟩ := (derives_readers ts).1 e he
      rw [if_pos ht, bind_of_ok he]
      exact ⟨some (⟨t, ht⟩, d), congrArg (t :: ·) hd⟩
    · rename_i ht
      rw [if_neg ht]
      exact ⟨none, rfl⟩

/-- An expression and a semicolon. -/
theorem exists_of_read_finish_ok {ts : List Token} {cause : SyntaxError.Cause} {build : Expr → Stmt}
    {s : Stmt} (h : ((Expr.read ts).bind fun e => Stmt.finish cause (build e)).result = .ok s) :
    ∃ (e : Derivation .assignment) (closing : Terminal (.symbol .semicolon)) (us : List Token),
      ts = e.tokens ++ closing.val :: us := by
  obtain ⟨e, he, hfinish⟩ := exists_of_bind_ok h
  obtain ⟨d, hd, -⟩ := (derives_readers ts).1 e he
  obtain ⟨closing, us, hrest⟩ := exists_of_finish_ok hfinish
  rw [hrest] at hd
  exact ⟨d, closing, us, hd⟩

/-- What is read as a statement begins with a declaration. -/
theorem exists_of_read_ok {ts : List Token} {s : Stmt} (h : (Stmt.read ts).result = .ok s) :
    ∃ (d : Declaration) (us : List Token), ts = d.tokens ++ us := by
  cases ts with
  | nil =>
    obtain ⟨e, closing, us, hts⟩ := exists_of_read_finish_ok h
    exact absurd hts (by simp)
  | cons t ts =>
    rw [Stmt.read] at h
    split at h
    · rename_i ht
      rw [Stmt.readDeclaration] at h
      obtain ⟨_, hname, h⟩ := exists_of_bind_ok h
      obtain ⟨name, us, rfl⟩ := exists_of_expect_ok hname
      rw [expect_terminal, Reading.done] at h
      obtain ⟨_, hcolons, h⟩ := exists_of_bind_ok h
      obtain ⟨colons, vs, rfl⟩ := exists_of_expect_ok hcolons
      rw [expect_terminal, Reading.done] at h
      obtain ⟨_, htype, h⟩ := exists_of_bind_ok h
      obtain ⟨type, ws, rfl⟩ := exists_of_expect_ok htype
      rw [expect_terminal, Reading.done] at h
      obtain ⟨_, hinitial, hfinish⟩ := exists_of_bind_ok h
      obtain ⟨initial, hws⟩ := exists_of_readInitial_ok hinitial
      obtain ⟨closing, xs, hrest⟩ := exists_of_finish_ok hfinish
      refine ⟨.declare ⟨t, ht⟩ name colons type initial closing, xs, ?_⟩
      rw [hrest] at hws
      simp [tokens, ← hws]
    split at h
    · rename_i ht
      obtain ⟨e, closing, us, rfl⟩ := exists_of_read_finish_ok h
      exact ⟨.print ⟨t, ht⟩ e closing, us, by simp [tokens]⟩
    · obtain ⟨e, closing, us, hts⟩ := exists_of_read_finish_ok h
      exact ⟨.expression e closing, us, by simpa [tokens] using hts⟩

/-- The items of a declaration: its complaints and its tree. -/
def items (d : Declaration) : List Item := d.notes.map .error ++ [.stmt d.tree]

theorem not_atEnd (d : Declaration) (ts : List Token) : ¬Program.atEnd (d.tokens ++ ts) := by
  cases hd : d.tokens with
  | nil => exact absurd hd d.tokens_ne_nil
  | cons t us => simpa [Program.atEnd] using d.endOfFile_not_mem t (by simp [hd])

/-- Declarations are read one after another. -/
theorem read_flatMap_tokens (ds : List Declaration) (ts : List Token) :
    Program.read (ds.flatMap tokens ++ ts) = (Program.read ts).after (ds.flatMap items) := by
  induction ds with
  | nil => rfl
  | cons d ds ih =>
    rw [List.flatMap_cons, List.append_assoc, Program.read_of_not_atEnd (d.not_atEnd _),
      d.read_tokens]
    have hfollowing : Program.following ⟨d.notes, .ok d.tree, ds.flatMap tokens ++ ts⟩ =
        ds.flatMap tokens ++ ts := rfl
    rw [hfollowing, ih]
    simp [Program.Outline.after, Program.itemsOf, Item.ofResult, items]

/-- Proper declarations are read as their trees alone. -/
theorem flatMap_items {ds : List Declaration} (h : ∀ d ∈ ds, d.IsProper) :
    ds.flatMap items = (ds.map tree).map .stmt := by
  have hitems : ∀ d ∈ ds, d.items = [.stmt d.tree] := by
    intro d hd
    rw [items, d.notes_eq_nil_iff.2 (h d hd)]
    rfl
  rw [List.map_map, List.flatMap_def, List.map_congr_left hitems, ← List.flatMap_def,
    List.map_eq_flatMap]
  rfl

/-- Where no error is found, the tokens up to the end are those of proper declarations. -/
theorem exists_of_items_stmt (ts : List Token)
    (h : ∀ i ∈ (Program.read ts).items, ∃ s, i = .stmt s) :
    ∃ (ds : List Declaration) (us : List Token), (∀ d ∈ ds, d.IsProper) ∧
      ts = ds.flatMap tokens ++ us ∧ Program.atEnd us := by
  by_cases hend : Program.atEnd ts
  · exact ⟨[], ts, by simp, rfl, hend⟩
  have hread := Program.read_of_not_atEnd hend
  have hitems : ∀ i ∈ Program.itemsOf (Stmt.read ts), ∃ s, i = .stmt s := by
    intro i hi
    exact h i (by rw [hread]; exact List.mem_append_left _ hi)
  cases hres : (Stmt.read ts).result with
  | error e =>
    obtain ⟨s, hs⟩ := hitems (.error e) (by simp [Program.itemsOf, hres, Item.ofResult])
    cases hs
  | ok s =>
    obtain ⟨d, us, hts⟩ := exists_of_read_ok hres
    have hstmt : Stmt.read ts = ⟨d.notes, .ok d.tree, us⟩ := by rw [hts, d.read_tokens]
    have hproper : d.IsProper := by
      rw [← d.notes_eq_nil_iff, List.eq_nil_iff_forall_not_mem]
      intro n hn
      obtain ⟨s, hs⟩ := hitems (.error n) (by simp [Program.itemsOf, hstmt, hn])
      cases hs
    have hlt : us.length < ts.length := by
      have hpos := List.length_pos_iff.2 d.tokens_ne_nil
      rw [hts, List.length_append]
      omega
    obtain ⟨ds, vs, hds, rfl, hvs⟩ := exists_of_items_stmt us fun i hi =>
      h i (by rw [hread, hstmt]; exact List.mem_append_right _ hi)
    exact ⟨d :: ds, vs, List.forall_mem_cons.2 ⟨hproper, hds⟩, by simp [hts], hvs⟩
termination_by ts.length

end Declaration

namespace Sentence

/-- A sentence is read whole, up to the marker of its end. -/
theorem read_tokens (s : Sentence) :
    Program.read s.tokens = ⟨s.declarations.flatMap Declaration.items, [s.ending.val]⟩ := by
  have hend : Program.atEnd [s.ending.val] := by simp [Program.atEnd, s.ending.property]
  rw [tokens, Declaration.read_flatMap_tokens, Program.read_of_atEnd hend]
  simp [Program.Outline.after]

/-- A proper sentence is read as its trees alone. -/
theorem items_of_isProper {s : Sentence} (h : s.IsProper) :
    (Program.read s.tokens).items = s.trees.map .stmt := by
  rw [read_tokens, trees]
  exact Declaration.flatMap_items h

/-- Tokens that end with their only marker of the end, and in which no error is found, have a proper
derivation. -/
theorem exists_of_items_stmt {ts : List Token} {ending : Terminal .endOfFile}
    (hts : ∀ t ∈ ts, t.kind ≠ .endOfFile)
    (h : ∀ i ∈ (Program.read (ts ++ [ending.val])).items, ∃ s, i = .stmt s) :
    ∃ s : Sentence, s.IsProper ∧ s.tokens = ts ++ [ending.val] := by
  obtain ⟨ds, us, hds, hsplit, hend⟩ := Declaration.exists_of_items_stmt _ h
  have hin : ∀ t ∈ ds.flatMap Declaration.tokens, t.kind ≠ .endOfFile := by
    intro t ht
    obtain ⟨d, -, ht⟩ := List.mem_flatMap.1 ht
    exact d.endOfFile_not_mem t ht
  refine ⟨⟨ds, ending⟩, hds, ?_⟩
  rw [tokens, hsplit]
  congr 1
  obtain ⟨mid, rfl, rfl⟩ :=
    exists_append_of_not_mem hsplit.symm fun hmem => hin _ hmem ending.property
  cases mid with
  | nil => rfl
  | cons v vs =>
    have hv : v.kind = .endOfFile := by simpa [Program.atEnd] using hend
    exact absurd hv (hts v (by simp))

end Sentence

/-- Tokens up to the marker of their end are read without errors exactly if the grammar derives
their kinds. The statements are then the trees of their derivation, of which there is one. -/
theorem read_items_iff_generates (ts : List Token) (ending : Terminal .endOfFile)
    (hts : ∀ t ∈ ts, t.kind ≠ .endOfFile) :
    ((∀ i ∈ (Program.read (ts ++ [ending.val])).items, ∃ s, i = .stmt s) ↔
      Generates ((ts ++ [ending.val]).map Token.kind)) ∧
    (Generates ((ts ++ [ending.val]).map Token.kind) →
      ∃ s : Sentence, s.IsProper ∧ s.tokens = ts ++ [ending.val] ∧
        (∀ s' : Sentence, s'.tokens = ts ++ [ending.val] → s' = s) ∧
        (Program.read (ts ++ [ending.val])).items = s.trees.map .stmt) := by
  have hderivation : Generates ((ts ++ [ending.val]).map Token.kind) →
      ∃ s : Sentence, s.IsProper ∧ s.tokens = ts ++ [ending.val] ∧
        (∀ s' : Sentence, s'.tokens = ts ++ [ending.val] → s' = s) ∧
        (Program.read (ts ++ [ending.val])).items = s.trees.map .stmt := by
    intro h
    obtain ⟨s, hs, htokens⟩ := Sentence.exists_of_generates h
    refine ⟨s, hs, htokens, fun s' hs' => Sentence.eq_of_tokens_eq (hs'.trans htokens.symm), ?_⟩
    rw [← htokens]
    exact Sentence.items_of_isProper hs
  refine ⟨⟨?_, ?_⟩, hderivation⟩
  · intro h
    obtain ⟨s, hs, htokens⟩ := Sentence.exists_of_items_stmt hts h
    rw [← htokens]
    exact Sentence.generates hs
  · intro h i hi
    obtain ⟨s, -, -, -, hitems⟩ := hderivation h
    rw [hitems] at hi
    obtain ⟨tree, -, rfl⟩ := List.mem_map.1 hi
    exact ⟨tree, rfl⟩

/-- The sentence `x = true;`. -/
theorem read_items_of_assignment :
    ∃ s : Sentence, s.IsProper ∧
      s.tokens = [⟨.identifier, "x", 1⟩, ⟨.symbol .equal, "=", 1⟩, ⟨.keyword .trueKw, "true", 1⟩,
        ⟨.symbol .semicolon, ";", 1⟩, ⟨.endOfFile, "", 1⟩] ∧
      (Program.read s.tokens).items =
        [.stmt (.expression (.assign ⟨.identifier, "x", 1⟩ (.literal (.boolean true))))] := by
  let ts : List Token := [⟨.identifier, "x", 1⟩, ⟨.symbol .equal, "=", 1⟩,
    ⟨.keyword .trueKw, "true", 1⟩, ⟨.symbol .semicolon, ";", 1⟩]
  let ending : Terminal .endOfFile := ⟨⟨.endOfFile, "", 1⟩, rfl⟩
  let e : Derivation .assignment :=
    .assign (.ofPrimary (.reference ⟨⟨.identifier, "x", 1⟩, rfl⟩)) ⟨⟨.symbol .equal, "=", 1⟩, rfl⟩
      (.plain (.ofPrimary (.literal ⟨.keyword .trueKw, "true", 1⟩ (.boolean true) .isTrue)))
  let s : Sentence := ⟨[.expression e ⟨⟨.symbol .semicolon, ";", 1⟩, rfl⟩], ending⟩
  have hs : s.IsProper := by
    intro d hd
    obtain rfl := List.mem_singleton.1 hd
    exact ⟨⟨⟨⟨.identifier, "x", 1⟩, rfl⟩, rfl⟩,
      by simp [Derivation.IsProper, Derivation.ofPrimary]⟩
  obtain ⟨s', hs', htokens, hunique, hitems⟩ :=
    (read_items_iff_generates ts ending (by decide)).2 ⟨s, hs, rfl⟩
  obtain rfl := hunique s rfl
  exact ⟨s, hs, rfl, hitems⟩

end Grammar

end TreeWalk

import TreeWalk.Proofs.Grammar.Statement

/-! Chunks of tokens, which end with their only semicolon. Whatever is wrong inside a chunk, reading
resumes right behind it, so that each chunk is read as if it stood alone. -/
namespace TreeWalk

open Program

/-- Tokens up to a semicolon, with no other semicolon and no marker of the end among them. After the
first token nothing opens a declaration. -/
structure Chunk where
  body : List Token
  closing : Terminal (.symbol .semicolon)
  inner : ∀ t ∈ body, t.Inner
  quiet : ∀ t ∈ body.tail, ¬opensDeclaration t

namespace Chunk

def tokens (c : Chunk) : List Token := c.body ++ [c.closing.val]

/-- The items of a chunk on its own. -/
def items (c : Chunk) (ending : Token) : List Item := (Program.read (c.tokens ++ [ending])).items

theorem not_atEnd (c : Chunk) (ts : List Token) : ¬atEnd (c.tokens ++ ts) := by
  rw [tokens]
  cases hb : c.body with
  | nil => simp [atEnd, c.closing.property]
  | cons t body =>
    have ht : t.Inner := c.inner t (by simp [hb])
    simpa [atEnd] using ht.2

/-- Nothing is skipped behind a semicolon that is dropped. -/
theorem resumeAfter_semicolon {dropped : Token} (h : dropped.kind = .symbol .semicolon)
    (ts : List Token) : resumeAfter dropped ts = ts := by
  cases ts with
  | nil => rfl
  | cons t ts => rw [resumeAfter, if_pos (.inl h)]

/-- Recovery passes over what opens no declaration, up to the first semicolon. -/
theorem resumeAfter_body {dropped : Token} {body : List Token}
    (hd : dropped.kind ≠ .symbol .semicolon) (closing : Terminal (.symbol .semicolon))
    (hin : ∀ t ∈ body, t.Inner) (hq : ∀ t ∈ body, ¬opensDeclaration t) (ts : List Token) :
    resumeAfter dropped (body ++ closing.val :: ts) = ts := by
  induction body generalizing dropped with
  | nil =>
    have hkeep : ¬(dropped.kind = .symbol .semicolon ∨ closing.val.kind = .endOfFile ∨
        opensDeclaration closing.val) := by simp [hd, closing.property, opensDeclaration]
    rw [List.nil_append, resumeAfter, if_neg hkeep]
    exact resumeAfter_semicolon closing.property ts
  | cons t body ih =>
    obtain ⟨ht, hin⟩ := List.forall_mem_cons.1 hin
    obtain ⟨htq, hq⟩ := List.forall_mem_cons.1 hq
    have hkeep : ¬(dropped.kind = .symbol .semicolon ∨ t.kind = .endOfFile ∨
        opensDeclaration t) := by simp [hd, ht.2, htq]
    rw [List.cons_append, resumeAfter, if_neg hkeep]
    exact ih ht.1 hin hq

/-- Wherever reading fails inside a chunk, it resumes behind the semicolon. -/
theorem resume_eq {c : Chunk} {front back : List Token} (h : c.body = front ++ back)
    (ts : List Token) : resume (back ++ c.closing.val :: ts) = ts := by
  cases back with
  | nil =>
    have hne : c.closing.val.kind ≠ .endOfFile := by simp [c.closing.property]
    rw [List.nil_append, resume, if_neg hne]
    exact resumeAfter_semicolon c.closing.property ts
  | cons t back =>
    have hin : ∀ s ∈ t :: back, s.Inner := fun s hs => c.inner s (by
      rw [h]
      exact List.mem_append_right _ hs)
    have hq : ∀ s ∈ back, ¬opensDeclaration s := by
      intro s hs
      apply c.quiet s
      rw [h]
      cases front with
      | nil => exact hs
      | cons u front => exact List.mem_append_right _ (List.mem_cons_of_mem t hs)
    obtain ⟨ht, hin⟩ := List.forall_mem_cons.1 hin
    rw [List.cons_append, resume, if_neg ht.2]
    exact resumeAfter_body ht.1 c.closing hin hq ts

/-- A reader that takes none but inner tokens stays inside the chunk. -/
theorem exists_back {c : Chunk} {front rest ts : List Token} (hf : ∀ t ∈ front, t.Inner)
    (h : front ++ rest = c.tokens ++ ts) :
    ∃ back, c.body = front ++ back ∧ rest = back ++ c.closing.val :: ts := by
  rw [tokens, List.append_assoc] at h
  exact exists_append_of_not_mem h fun hmem => (hf _ hmem).1 c.closing.property

theorem exists_rest_readOpen (c : Chunk) (ts : List Token) :
    ∃ front back, c.body = front ++ back ∧
      (Stmt.readOpen (c.tokens ++ ts)).rest = back ++ c.closing.val :: ts ∧
      ∀ n ∈ (Stmt.readOpen (c.tokens ++ ts)).notes,
        ∃ t ∈ c.tokens, n = .atToken t .invalidTarget := by
  obtain ⟨front, hfront, hin, hnotes⟩ := (Stmt.accounts_readOpen (c.tokens ++ ts)).taken
  obtain ⟨back, hbody, hrest⟩ := exists_back hin hfront
  refine ⟨front, back, hbody, hrest, ?_⟩
  intro n hn
  obtain ⟨t, ht, -, hn⟩ := hnotes n hn
  exact ⟨t, by simp [tokens, hbody, ht], hn⟩

/-- A statement that begins with a chunk ends there, well or with an error at one of its tokens. -/
theorem read_outcome (c : Chunk) (ts : List Token) :
    (∀ n ∈ (Stmt.read (c.tokens ++ ts)).notes, ∃ t ∈ c.tokens, n = .atToken t .invalidTarget) ∧
    following (Stmt.read (c.tokens ++ ts)) = ts ∧
    ((∃ s, (Stmt.read (c.tokens ++ ts)).result = .ok s) ∨
      ∃ t ∈ c.tokens, ∃ cause, cause ≠ .invalidTarget ∧
        (Stmt.read (c.tokens ++ ts)).result = .error (.atToken t cause)) := by
  obtain ⟨front, back, hbody, hrest, hnotes⟩ := c.exists_rest_readOpen ts
  have hhead {t : Token} {us : List Token} (h : back ++ c.closing.val :: ts = t :: us) :
      t ∈ c.tokens := by
    cases back with
    | nil =>
      obtain ⟨rfl, -⟩ := List.cons.inj h
      simp [tokens]
    | cons u back =>
      obtain ⟨rfl, -⟩ := List.cons.inj h
      simp [tokens, hbody]
  rcases Stmt.read_outcome (c.tokens ++ ts) with ⟨e, hblames, hread⟩ | ⟨s, closing, rest, hend, hread⟩
  · rw [hread]
    refine ⟨hnotes, ?_, .inr ?_⟩
    · rw [following, hrest]
      exact resume_eq hbody ts
    · rw [hrest] at hblames
      cases hback : back ++ c.closing.val :: ts with
      | nil => exact absurd hback (by simp)
      | cons t us =>
        rw [hback] at hblames
        obtain ⟨cause, hcause, rfl⟩ := hblames
        exact ⟨t, hhead hback, cause, hcause, rfl⟩
  · rw [hread]
    refine ⟨hnotes, ?_, .inl ⟨s, rfl⟩⟩
    rw [hrest] at hend
    cases back with
    | nil => exact (List.cons.inj hend).2.symm
    | cons t back =>
      obtain ⟨rfl, -⟩ := List.cons.inj hend
      exact absurd closing.property (c.inner closing.val (by simp [hbody])).1

/-- What follows a chunk does not change how its statement is read. -/
theorem itemsOf_read_append (c : Chunk) (ts : List Token) :
    itemsOf (Stmt.read (c.tokens ++ ts)) = itemsOf (Stmt.read c.tokens) := by
  obtain ⟨front, back, -, hrest, -⟩ := c.exists_rest_readOpen []
  have hne : (Stmt.readOpen c.tokens).rest ≠ [] := by
    rw [List.append_nil] at hrest
    simp [hrest]
  rw [Stmt.read_before ts hne]
  rfl

theorem read_append (c : Chunk) (ts : List Token) :
    (Program.read (c.tokens ++ ts)).items =
      itemsOf (Stmt.read c.tokens) ++ (Program.read ts).items := by
  obtain ⟨-, hfollowing, -⟩ := c.read_outcome ts
  rw [read_of_not_atEnd (c.not_atEnd ts), hfollowing, itemsOf_read_append]
  rfl

theorem items_eq (c : Chunk) (ending : Terminal .endOfFile) :
    c.items ending.val = itemsOf (Stmt.read c.tokens) := by
  have hend : atEnd [ending.val] := by simp [atEnd, ending.property]
  rw [items, read_append, read_of_atEnd hend, List.append_nil]

/-- Chunks are read one by one: each gives the items that it has alone, which are complaints about
assignments to what is no name and then a statement or an error at one of its tokens. -/
theorem items_flatMap_tokens (ending : Terminal .endOfFile) :
    (∀ (c : Chunk) (ts : List Token),
      (Program.read (c.tokens ++ ts)).items = c.items ending.val ++ (Program.read ts).items) ∧
    (∀ c : Chunk, ∃ (complaints : List Item) (last : Item),
      c.items ending.val = complaints ++ [last] ∧
      (∀ i ∈ complaints, ∃ t ∈ c.tokens, i = .error (.atToken t .invalidTarget)) ∧
      ((∃ s, last = .stmt s) ∨ ∃ t ∈ c.tokens, ∃ cause, cause ≠ .invalidTarget ∧
        last = .error (.atToken t cause))) ∧
    (∀ cs : List Chunk, (Program.read (cs.flatMap tokens ++ [ending.val])).items =
      cs.flatMap fun c => c.items ending.val) := by
  have hsplit : ∀ (c : Chunk) (ts : List Token),
      (Program.read (c.tokens ++ ts)).items = c.items ending.val ++ (Program.read ts).items := by
    intro c ts
    rw [read_append, items_eq]
  refine ⟨hsplit, ?_, ?_⟩
  · intro c
    obtain ⟨hnotes, -, hresult⟩ := c.read_outcome []
    rw [List.append_nil] at hnotes hresult
    refine ⟨(Stmt.read c.tokens).notes.map .error, .ofResult (Stmt.read c.tokens).result,
      c.items_eq ending, ?_, ?_⟩
    · intro i hi
      obtain ⟨n, hn, rfl⟩ := List.mem_map.1 hi
      obtain ⟨t, ht, rfl⟩ := hnotes n hn
      exact ⟨t, ht, rfl⟩
    · rcases hresult with ⟨s, hs⟩ | ⟨t, ht, cause, hcause, hs⟩
      · exact .inl ⟨s, by rw [hs]; rfl⟩
      · exact .inr ⟨t, ht, cause, hcause, by rw [hs]; rfl⟩
  · intro cs
    induction cs with
    | nil =>
      have hend : atEnd [ending.val] := by simp [atEnd, ending.property]
      rw [List.flatMap_nil, List.nil_append, read_of_atEnd hend]
      rfl
    | cons c cs ih =>
      rw [List.flatMap_cons, List.append_assoc, hsplit, ih]
      rfl

end Chunk

end TreeWalk

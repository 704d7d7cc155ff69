import TreeWalk.Grammar.Recovery

/-! What the readers of expressions have in common. They take a front of their tokens, note nothing
but invalid targets there, and blame the token at which they stop. Where that is not the end of the
list, more tokens behind it change nothing. -/
namespace TreeWalk

/-- What is taken from the front of a list ends before an element that was not taken. -/
theorem exists_append_of_not_mem {α : Type} {taken rest front back : List α} {a : α}
    (h : taken ++ rest = front ++ a :: back) (ha : a ∉ taken) :
    ∃ mid, front = taken ++ mid ∧ rest = mid ++ a :: back := by
  rcases List.append_eq_append_iff.1 h with ⟨mid, hfront, hrest⟩ | ⟨more, htaken, hback⟩
  · exact ⟨mid, hfront, hrest⟩
  · cases more with
    | nil => exact ⟨[], by simpa using htaken.symm, hback.symm⟩
    | cons b more =>
      obtain ⟨rfl, -⟩ := List.cons.inj hback
      exact absurd (by simp [htaken]) ha

/-- A token of one kind. -/
abbrev Terminal (kind : Token.Kind) := { t : Token // t.kind = kind }

theorem Terminal.ne {k k' : Token.Kind} (t : Terminal k) (t' : Terminal k') (h : k ≠ k') :
    t.val ≠ t'.val := by
  intro ht
  exact h (t.property.symm.trans ((congrArg Token.kind ht).trans t'.property))

/-- The error is at the first token left, if there is one. -/
def SyntaxError.Blames (e : SyntaxError) : List Token → Prop
  | [] => e = .endOfInput
  | t :: _ => ∃ cause, cause ≠ .invalidTarget ∧ e = .atToken t cause

/-- Tokens that stand inside statements: they end neither a statement nor the program. -/
def Token.Inner (t : Token) : Prop := t.kind ≠ .symbol .semicolon ∧ t.kind ≠ .endOfFile

/-- Tokens none of which marks the end. -/
def Token.NoneEnds (ts : List Token) : Prop := ∀ t ∈ ts, t.kind ≠ .endOfFile

namespace Reading

variable {α β : Type}

theorem bind_eq {r : Reading α} {f : α → List Token → Reading β} {notes notes' : List SyntaxError}
    {a : α} {result : Except SyntaxError β} {rest rest' : List Token}
    (hr : r = ⟨notes, .ok a, rest⟩) (hf : f a rest = ⟨notes', result, rest'⟩) :
    r.bind f = ⟨notes ++ notes', result, rest'⟩ := by
  simp only [hr, bind, hf]

theorem bind_error {r : Reading α} {e : SyntaxError} (h : r.result = .error e)
    (f : α → List Token → Reading β) : r.bind f = ⟨r.notes, .error e, r.rest⟩ := by
  rw [bind, h]

theorem bind_of_ok {r : Reading α} {a : α} (h : r.result = .ok a)
    (f : α → List Token → Reading β) :
    r.bind f =
      ⟨r.notes ++ (f a r.rest).notes, (f a r.rest).result, (f a r.rest).rest⟩ := by
  rw [bind, h]

/-- A reading in two parts that succeeds does so in both. -/
theorem exists_of_bind_ok {r : Reading α} {f : α → List Token → Reading β} {b : β}
    (h : (r.bind f).result = .ok b) : ∃ a, r.result = .ok a ∧ (f a r.rest).result = .ok b := by
  cases hr : r.result with
  | error e =>
    rw [bind_error hr] at h
    cases h
  | ok a =>
    rw [bind_of_ok hr] at h
    exact ⟨a, rfl, h⟩

/-- Which tokens are taken, what is noted about them, and what is to blame for a failure. -/
structure Accounts (ts : List Token) (r : Reading α) : Prop where
  taken : ∃ front, front ++ r.rest = ts ∧ (∀ t ∈ front, t.Inner) ∧
    ∀ n ∈ r.notes, ∃ t ∈ front, t.kind = .symbol .equal ∧ n = .atToken t .invalidTarget
  blames : ∀ e, r.result = .error e → e.Blames r.rest

variable {ts : List Token}

theorem Accounts.suffix {r : Reading α} (h : r.Accounts ts) : r.rest <:+ ts := by
  obtain ⟨front, hfront, -⟩ := h.taken
  exact ⟨front, hfront⟩

theorem Accounts.fail {cause : SyntaxError.Cause} (h : cause ≠ .invalidTarget)
    (ts : List Token) : (Reading.fail cause ts : Reading α).Accounts ts := by
  refine ⟨⟨[], by simp, by simp, by simp⟩, fun e he => ?_⟩
  cases ts with
  | nil =>
    cases he
    rfl
  | cons t ts =>
    cases he
    exact ⟨cause, h, rfl⟩

theorem Accounts.done (a : α) (ts : List Token) : (Reading.done a ts).Accounts ts :=
  ⟨⟨[], rfl, by simp, by simp [Reading.done]⟩, fun _ he => by cases he⟩

theorem Accounts.cons {r : Reading α} (h : r.Accounts ts) {t : Token} (ht : t.Inner) :
    r.Accounts (t :: ts) := by
  obtain ⟨front, hfront, hin, hnotes⟩ := h.taken
  refine ⟨⟨t :: front, by rw [List.cons_append, hfront], ?_, ?_⟩, h.blames⟩
  · exact List.forall_mem_cons.2 ⟨ht, hin⟩
  · intro n hn
    obtain ⟨s, hs, hk⟩ := hnotes n hn
    exact ⟨s, List.mem_cons_of_mem t hs, hk⟩

theorem Accounts.bind {r : Reading α} {f : α → List Token → Reading β} (hr : r.Accounts ts)
    (hf : ∀ a, r.result = .ok a → (f a r.rest).Accounts r.rest) : (r.bind f).Accounts ts := by
  cases hres : r.result with
  | error e =>
    rw [bind_error hres]
    refine ⟨hr.taken, fun e' he' => ?_⟩
    cases he'
    exact hr.blames e hres
  | ok a =>
    rw [bind_of_ok hres]
    obtain ⟨front, hfront, hin, hnotes⟩ := hr.taken
    obtain ⟨front', hfront', hin', hnotes'⟩ := (hf a hres).taken
    refine ⟨⟨front ++ front', ?_, ?_, ?_⟩, (hf a hres).blames⟩
    · rw [List.append_assoc, hfront', hfront]
    · exact List.forall_mem_append.2 ⟨hin, hin'⟩
    · intro n hn
      rcases List.mem_append.1 hn with hn | hn
      · obtain ⟨t, ht, hk⟩ := hnotes n hn
        exact ⟨t, List.mem_append_left _ ht, hk⟩
      · obtain ⟨t, ht, hk⟩ := hnotes' n hn
        exact ⟨t, List.mem_append_right _ ht, hk⟩

theorem Accounts.expect {kind : Token.Kind} {cause : SyntaxError.Cause}
    (hc : cause ≠ .invalidTarget) (hi : ∀ t : Token, t.kind = kind → t.Inner) (ts : List Token) :
    (Reading.expect kind cause ts).Accounts ts := by
  cases ts with
  | nil => exact .fail hc []
  | cons t ts =>
    rw [Reading.expect]
    split
    · rename_i ht
      exact (Accounts.done t ts).cons (hi t ht)
    · exact .fail hc (t :: ts)

/-- The same reading, with more tokens behind those left. -/
def before (r : Reading α) (us : List Token) : Reading α := { r with rest := r.rest ++ us }

/-- What more tokens do behind those that were read. Where some of these are left, nothing. Where
none is, nothing but the new ones can be left. -/
structure Extends (us : List Token) (r r' : Reading α) : Prop where
  before : r.rest ≠ [] → r' = r.before us
  suffix : r.rest = [] → r'.rest <:+ us

theorem extends_before (r : Reading α) (us : List Token) : Extends us r (r.before us) := by
  refine ⟨fun _ => rfl, fun h => ?_⟩
  rw [Reading.before, h]
  exact List.suffix_rfl

theorem extends_of_rest_eq_nil {r r' : Reading α} {us : List Token} (h : r.rest = [])
    (hr : r'.rest <:+ us) : Extends us r r' :=
  ⟨fun hne => absurd h hne, fun _ => hr⟩

theorem before_bind {r : Reading α} {f : α → List Token → Reading β} {us : List Token}
    (hf : ∀ a, r.result = .ok a → f a (r.rest ++ us) = (f a r.rest).before us) :
    (r.before us).bind f = (r.bind f).before us := by
  cases hres : r.result with
  | error e =>
    rw [bind_error hres, bind_error (r := r.before us) hres]
    rfl
  | ok a =>
    rw [bind_of_ok hres, bind_of_ok (r := r.before us) hres]
    simp only [before, hf a hres]

theorem Extends.bind {r r' : Reading α} {f : α → List Token → Reading β} {us : List Token}
    (hr : Extends us r r')
    (hf : ∀ a, r.result = .ok a → Extends us (f a r.rest) (f a (r.rest ++ us)))
    (hs : ∀ a ts, (f a ts).rest <:+ ts) : Extends us (r.bind f) (r'.bind f) := by
  by_cases hrest : r.rest = []
  · have hnil : (r.bind f).rest <:+ [] := rest_bind_suffix (by simp [hrest]) fun a => hs a _
    exact extends_of_rest_eq_nil (List.suffix_nil.1 hnil)
      (rest_bind_suffix (hr.suffix hrest) fun a => hs a _)
  · rw [hr.before hrest]
    cases hres : r.result with
    | error e =>
      rw [before_bind fun a ha => by rw [hres] at ha; cases ha]
      exact extends_before _ us
    | ok a =>
      rw [bind_of_ok hres, bind_of_ok (r := r.before us) hres]
      refine ⟨fun h => ?_, (hf a hres).suffix⟩
      have hbefore := (hf a hres).before h
      simp only [Reading.before, hbefore]

theorem extends_expect (kind : Token.Kind) (cause : SyntaxError.Cause) (us ts : List Token) :
    Extends us (expect kind cause ts) (expect kind cause (ts ++ us)) := by
  cases ts with
  | nil => exact extends_of_rest_eq_nil rfl (advances_expect kind cause us).1
  | cons t ts =>
    have hbefore : expect kind cause (t :: ts ++ us) = (expect kind cause (t :: ts)).before us := by
      simp only [List.cons_append, expect]
      split <;> rfl
    rw [hbefore]
    exact extends_before _ us

end Reading

namespace Expr

open Reading

/-- Induction over the readers of expressions. Each may rely on all of them for shorter lists, a
tier also on the tier of its operands, and an assignment on its left side. -/
theorem readers_induction {A O : List Token → Prop} {L : Tier → List Token → Prop}
    {C : Tier → Expr → List Token → Prop}
    (operand : ∀ ts, (∀ us, us.length < ts.length → A us ∧ O us) → O ts)
    (chain : ∀ t left ts, (∀ us, us.length < ts.length → (∀ t, L t us) ∧ ∀ left, C t left us) →
      C t left ts)
    (unary : ∀ ts, O ts → L .unary ts)
    (tier : ∀ t ts, t ≠ .unary → L t.operand ts →
      (∀ left us, us.length < ts.length → C t left us) → L t ts)
    (assignment : ∀ ts, L .equality ts → (∀ us, us.length < ts.length → A us) → A ts)
    (ts : List Token) : A ts ∧ (∀ t, L t ts) ∧ (∀ t left, C t left ts) ∧ O ts := by
  have ih : ∀ us : List Token, us.length < ts.length →
      A us ∧ (∀ t, L t us) ∧ (∀ t left, C t left us) ∧ O us :=
    fun us _ => readers_induction operand chain unary tier assignment us
  have hC : ∀ t left us, us.length < ts.length → C t left us :=
    fun t left us h => (ih us h).2.2.1 t left
  have hO : O ts := operand ts fun us h => ⟨(ih us h).1, (ih us h).2.2.2⟩
  have hunary : L .unary ts := unary ts hO
  have hfactor : L .factor ts := tier .factor ts (by decide) hunary (hC _)
  have hterm : L .term ts := tier .term ts (by decide) hfactor (hC _)
  have hcomparison : L .comparison ts := tier .comparison ts (by decide) hterm (hC _)
  have hequality : L .equality ts := tier .equality ts (by decide) hcomparison (hC _)
  refine ⟨assignment ts hequality fun us h => (ih us h).1, fun t => ?_, fun t left => ?_, hO⟩
  · cases t <;> assumption
  · exact chain t left ts fun us h => ⟨(ih us h).2.1, fun left => hC t left us h⟩
termination_by ts.length

theorem accounts_readAssigned (left : Expr) {ts : List Token}
    (h : ∀ us : List Token, us.length < ts.length → (read us).Accounts us) :
    (readAssigned left ts).Accounts ts := by
  cases ts with
  | nil => exact .done left []
  | cons equals ts =>
    rw [readAssigned]
    split
    · rename_i hequals
      have hinner : equals.Inner := by simp [Token.Inner, hequals]
      have hts := h ts (Nat.lt_succ_self _)
      cases hres : (read ts).result with
      | error e =>
        rw [bind_error hres]
        exact (⟨hts.taken, fun e' he' => by cases he'; exact hts.blames e hres⟩ :
          Accounts ts ⟨_, .error e, _⟩).cons hinner
      | ok value =>
        obtain ⟨front, hfront, hin, hnotes⟩ := hts.taken
        rw [bind_of_ok hres, rest_assignTo]
        refine ⟨⟨equals :: front, by rw [List.cons_append, hfront],
          List.forall_mem_cons.2 ⟨hinner, hin⟩, ?_⟩, ?_⟩
        · intro n hn
          rcases List.mem_append.1 hn with hn | hn
          · obtain ⟨t, ht, hk⟩ := hnotes n hn
            exact ⟨t, List.mem_cons_of_mem _ ht, hk⟩
          · refine ⟨equals, List.mem_cons_self, hequals, ?_⟩
            cases left <;> simp_all [assignTo, done]
        · intro e he
          cases left <;> cases he
    · exact .done left (equals :: ts)

theorem accounts_closeGrouping (inner : Expr) (ts : List Token) :
    (closeGrouping inner ts).Accounts ts := by
  refine (Accounts.expect (by simp) (fun t ht => ?_) ts).bind fun _ _ => .done _ _
  simp [Token.Inner, ht]

theorem accounts_readOperand {ts : List Token}
    (h : ∀ us : List Token, us.length < ts.length →
      (read us).Accounts us ∧ (readOperand us).Accounts us) :
    (readOperand ts).Accounts ts := by
  cases ts with
  | nil =>
    rw [readOperand_nil]
    exact .fail (by simp) []
  | cons t ts =>
    obtain ⟨hread, hoperand⟩ := h ts (Nat.lt_succ_self _)
    rw [readOperand_cons]
    split
    · rename_i ht
      refine (hoperand.bind fun _ _ => .done _ _).cons ?_
      rcases (by simpa [Token.Kind.isUnary] using ht) with ht | ht <;> simp [Token.Inner, ht]
    split
    · rename_i ht
      refine (hread.bind fun _ _ => accounts_closeGrouping _ _).cons ?_
      simp [Token.Inner, ht]
    split
    · rename_i ht
      refine (Accounts.done _ ts).cons ?_
      simp [Token.Inner, ht]
    split
    · rename_i v hv
      refine (Accounts.done _ ts).cons ⟨?_, ?_⟩ <;>
        · intro ht
          rw [ht] at hv
          cases hv
    · exact .fail (by simp) (t :: ts)

/-- Every reader of expressions accounts for what it does. -/
theorem accounts_readers (ts : List Token) :
    (read ts).Accounts ts ∧ (∀ t, (readTier t ts).Accounts ts) ∧
      (∀ t left, (readChain t left ts).Accounts ts) ∧ (readOperand ts).Accounts ts := by
  apply readers_induction (A := fun ts => (read ts).Accounts ts)
    (O := fun ts => (readOperand ts).Accounts ts) (L := fun t ts => (readTier t ts).Accounts ts)
    (C := fun t left ts => (readChain t left ts).Accounts ts)
  case operand => exact fun ts h => accounts_readOperand h
  case chain =>
    intro t left ts h
    cases ts with
    | nil =>
      rw [readChain_nil]
      exact .done left []
    | cons op ts =>
      obtain ⟨hlevel, -⟩ := h ts (Nat.lt_succ_self _)
      rw [readChain_cons]
      split
      · rename_i hop
        refine ((hlevel t.operand).bind fun right hres => ?_).cons ?_
        · have hlt := (advances_readTier t.operand ts).2 right hres
          exact (h _ (Nat.lt_succ_of_lt hlt)).2 _
        · constructor <;>
          · intro hk
            rw [hk] at hop
            cases hop
      · exact .done left (op :: ts)
  case unary =>
    intro ts h
    rwa [readTier_unary]
  case tier =>
    intro t ts ht hoperand hchain
    rw [readTier_eq ht]
    refine hoperand.bind fun left hres => ?_
    exact hchain left _ ((advances_readTier t.operand ts).2 left hres)
  case assignment =>
    intro ts hlevel hread
    rw [read_eq]
    refine hlevel.bind fun left hres => accounts_readAssigned left fun us hus => ?_
    exact hread us (Nat.lt_trans hus ((advances_readTier .equality ts).2 left hres))

theorem rest_readAssigned_suffix (left : Expr) (ts : List Token) :
    (readAssigned left ts).rest <:+ ts :=
  (accounts_readAssigned left fun us _ => (accounts_readers us).1).suffix

theorem extends_readAssigned (left : Expr) {ts : List Token} (us : List Token)
    (h : ∀ vs : List Token, vs.length < ts.length → Extends us (read vs) (read (vs ++ us))) :
    Extends us (readAssigned left ts) (readAssigned left (ts ++ us)) := by
  cases ts with
  | nil => exact extends_of_rest_eq_nil rfl (rest_readAssigned_suffix left us)
  | cons equals ts =>
    rw [List.cons_append, readAssigned, readAssigned]
    split
    · refine (h ts (Nat.lt_succ_self _)).bind (fun value _ => ?_) fun value vs => by simp
      cases left <;> exact extends_before _ us
    · exact extends_before _ us

theorem extends_closeGrouping (inner : Expr) (us ts : List Token) :
    Extends us (closeGrouping inner ts) (closeGrouping inner (ts ++ us)) :=
  (extends_expect _ _ us ts).bind (fun _ _ => extends_before _ us) fun _ _ => List.suffix_rfl

theorem extends_readOperand {ts : List Token} (us : List Token)
    (h : ∀ vs : List Token, vs.length < ts.length →
      Extends us (read vs) (read (vs ++ us)) ∧
      Extends us (readOperand vs) (readOperand (vs ++ us))) :
    Extends us (readOperand ts) (readOperand (ts ++ us)) := by
  cases ts with
  | nil => exact extends_of_rest_eq_nil (by simp) (advances_readOperand us).1
  | cons t ts =>
    obtain ⟨hread, hoperand⟩ := h ts (Nat.lt_succ_self _)
    rw [List.cons_append, readOperand_cons, readOperand_cons]
    split
    · exact hoperand.bind (fun _ _ => extends_before _ us) fun _ _ => List.suffix_rfl
    split
    · exact hread.bind (fun inner _ => extends_closeGrouping inner us _)
        fun inner vs => (advances_closeGrouping inner vs).1
    split
    · exact extends_before _ us
    split <;> exact extends_before _ us

/-- Readers of expressions look no further than the first token that they leave. -/
theorem extends_readers (us ts : List Token) :
    Extends us (read ts) (read (ts ++ us)) ∧
    (∀ t, Extends us (readTier t ts) (readTier t (ts ++ us))) ∧
    (∀ t left, Extends us (readChain t left ts) (readChain t left (ts ++ us))) ∧
    Extends us (readOperand ts) (readOperand (ts ++ us)) := by
  apply readers_induction (A := fun ts => Extends us (read ts) (read (ts ++ us)))
    (O := fun ts => Extends us (readOperand ts) (readOperand (ts ++ us)))
    (L := fun t ts => Extends us (readTier t ts) (readTier t (ts ++ us)))
    (C := fun t left ts => Extends us (readChain t left ts) (readChain t left (ts ++ us)))
  case operand => exact fun ts h => extends_readOperand us h
  case chain =>
    intro t left ts h
    cases ts with
    | nil =>
      exact extends_of_rest_eq_nil (by rw [readChain_nil]; rfl) (rest_readChain_suffix t left us)
    | cons op ts =>
      obtain ⟨hlevel, -⟩ := h ts (Nat.lt_succ_self _)
      rw [List.cons_append, readChain_cons, readChain_cons]
      split
      · refine (hlevel t.operand).bind (fun right hres => ?_)
          fun right vs => rest_readChain_suffix t _ vs
        have hlt := (advances_readTier t.operand ts).2 right hres
        exact (h _ (Nat.lt_succ_of_lt hlt)).2 _
      · exact extends_before _ us
  case unary =>
    intro ts h
    rwa [readTier_unary, readTier_unary]
  case tier =>
    intro t ts ht hoperand hchain
    rw [readTier_eq ht, readTier_eq ht]
    refine hoperand.bind (fun left hres => ?_) fun left vs => rest_readChain_suffix t left vs
    exact hchain left _ ((advances_readTier t.operand ts).2 left hres)
  case assignment =>
    intro ts hlevel hread
    rw [read_eq, read_eq]
    refine hlevel.bind (fun left hres => extends_readAssigned left us fun vs hvs => ?_)
      rest_readAssigned_suffix
    exact hread vs (Nat.lt_trans hvs ((advances_readTier .equality ts).2 left hres))

end Expr

end TreeWalk

import Mathlib.Data.List.Nodup
import TreeWalk.Proofs.Grammar.Targets
import TreeWalk.Proofs.Grammar.Tokens

/-! Reading always gets on and comes to an end. Each statement takes a token before the marker of
the end, and one more for each complaint in it. The readers of expressions call one another a number
of times that is linear in the tokens that they take. -/
namespace TreeWalk

open Token Grammar Grammar.Piece

/-- Each complaint has an equals sign of its own, and none of these comes first. -/
theorem Grammar.Piece.length_complaints_le (ps : List Piece) :
    (complaints ps).length ≤ (spell ps).length - 1 := by
  obtain ⟨places, hnoted⟩ := areNoted ps
  have hinside : places ⊆ List.range' 1 ((spell ps).length - 1) := by
    intro n hn
    obtain ⟨left, equals, value, hassigns, -⟩ := (hnoted.mem_iff n).1 hn
    have hleft := List.length_pos_iff.2 (left.tokens_ne_nil (by simp))
    have hle := hassigns.le
    have hlt := hassigns.lt
    rw [List.mem_range'_1]
    omega
  have hlength := hnoted.nodup.length_le_of_subset hinside
  rwa [List.length_range', hnoted.noted.length_eq] at hlength

namespace Stmt

open Reading

/-- A statement, whether it succeeds or not, has fewer complaints than tokens. -/
theorem length_notes_le {ts taken : List Token} (h : taken ++ (read ts).rest = ts) :
    (read ts).notes.length ≤ taken.length - 1 := by
  cases hres : (read ts).result with
  | ok s =>
    obtain ⟨d, rest, rfl⟩ := Declaration.exists_of_read_ok hres
    rw [d.read_tokens] at h ⊢
    obtain rfl : taken = spell d.pieces := by
      rw [d.spell_pieces]
      exact List.append_cancel_right h
    rw [← d.complaints_pieces]
    exact length_complaints_le d.pieces
  | error e =>
    obtain ⟨pieces, hpieces, hnotes, -⟩ := Unfinished.breaks_read ts e hres
    obtain rfl : taken = spell pieces := List.append_cancel_right (h.trans hpieces)
    rw [hnotes]
    exact length_complaints_le pieces

end Stmt

namespace Program

theorem exists_skipped_after (dropped : Token) (ts : List Token) :
    ∃ skipped, skipped ++ resumeAfter dropped ts = ts ∧ NoneEnds skipped := by
  induction ts generalizing dropped with
  | nil => exact ⟨[], rfl, by simp [NoneEnds]⟩
  | cons t ts ih =>
    rw [resumeAfter]
    split
    · exact ⟨[], rfl, by simp [NoneEnds]⟩
    · rename_i hgo
      obtain ⟨skipped, hskipped, hends⟩ := ih t
      rw [not_or, not_or] at hgo
      exact ⟨t :: skipped, by rw [List.cons_append, hskipped],
        List.forall_mem_cons.2 ⟨hgo.2.1, hends⟩⟩

/-- Recovery skips at least the offending token, and nothing at the marker of the end. -/
theorem exists_skipped {ts : List Token} (h : ¬atEnd ts) :
    ∃ skipped, skipped ++ resume ts = ts ∧ NoneEnds skipped ∧ skipped ≠ [] := by
  cases ts with
  | nil => exact absurd rfl h
  | cons t ts =>
    have ht : t.kind ≠ .endOfFile := by simpa [atEnd] using h
    obtain ⟨skipped, hskipped, hends⟩ := exists_skipped_after t ts
    rw [resume, if_neg ht]
    exact ⟨t :: skipped, by rw [List.cons_append, hskipped], List.forall_mem_cons.2 ⟨ht, hends⟩,
      List.cons_ne_nil _ _⟩

/-- A statement with what is skipped after it has a token, and one more for each complaint. -/
theorem exists_taken_up {ts : List Token} (h : ¬atEnd ts) :
    ∃ taken, taken ++ following (Stmt.read ts) = ts ∧ NoneEnds taken ∧
      (Stmt.read ts).notes.length + 1 ≤ taken.length := by
  obtain ⟨taken, htaken, hends⟩ := Stmt.exists_taken ts
  have hnotes := Stmt.length_notes_le htaken
  have hlength := congrArg List.length htaken
  rw [List.length_append] at hlength
  cases hres : (Stmt.read ts).result with
  | ok s =>
    have hlt := (Stmt.advances_read ts).2 s hres
    rw [following, hres]
    exact ⟨taken, htaken, hends, by omega⟩
  | error e =>
    have hfollowing : following (Stmt.read ts) = resume (Stmt.read ts).rest := by
      rw [following, hres]
    by_cases hend : atEnd (Stmt.read ts).rest
    · rw [hfollowing, resume_eq_of_atEnd hend]
      have hne : taken ≠ [] := by
        rintro rfl
        rw [List.nil_append] at htaken
        exact h (htaken ▸ hend)
      have hpos := List.length_pos_iff.2 hne
      exact ⟨taken, htaken, hends, by omega⟩
    · obtain ⟨skipped, hskipped, hends', hne⟩ := exists_skipped hend
      have hpos := List.length_pos_iff.2 hne
      rw [hfollowing]
      refine ⟨taken ++ skipped, by rw [List.append_assoc, hskipped, htaken],
        List.forall_mem_append.2 ⟨hends, hends'⟩, ?_⟩
      rw [List.length_append]
      omega

/-- The statements of a token list are read one after another, until its end. -/
inductive Turns : List Token → List (Reading Stmt) → Prop
  | stop {ts : List Token} (h : atEnd ts) : Turns ts []
  | turn {ts : List Token} {rs : List (Reading Stmt)} (h : ¬atEnd ts)
      (more : Turns (following (Stmt.read ts)) rs) : Turns ts (Stmt.read ts :: rs)

/-- The tokens before the first marker of the end. -/
def beforeEnd (ts : List Token) : List Token := ts.takeWhile (·.kind ≠ .endOfFile)

theorem beforeEnd_append {taken : List Token} (h : NoneEnds taken) (ts : List Token) :
    beforeEnd (taken ++ ts) = taken ++ beforeEnd ts :=
  List.takeWhile_append_of_pos fun t ht => decide_eq_true (h t ht)

/-- Each turn takes up enough of the tokens before the end to pay for its items. -/
theorem exists_turns (ts : List Token) :
    ∃ rs, Turns ts rs ∧ (read ts).items = rs.flatMap itemsOf ∧
      rs.length ≤ (beforeEnd ts).length ∧ (read ts).items.length ≤ (beforeEnd ts).length := by
  induction ts using read_induction with
  | ending ts h =>
    rw [read_of_atEnd h]
    exact ⟨[], .stop h, rfl, Nat.zero_le _, Nat.zero_le _⟩
  | next ts h ih =>
    obtain ⟨rs, hturns, hitems, hturn, hitem⟩ := ih
    obtain ⟨taken, htaken, hends, hlength⟩ := exists_taken_up h
    have hbefore : (beforeEnd ts).length =
        taken.length + (beforeEnd (following (Stmt.read ts))).length := by
      rw [← List.length_append, ← beforeEnd_append hends, htaken]
    have hone : (itemsOf (Stmt.read ts)).length = (Stmt.read ts).notes.length + 1 := by
      simp [itemsOf]
    refine ⟨Stmt.read ts :: rs, .turn h hturns, ?_, ?_, ?_⟩
    · rw [read_of_not_atEnd h, Outline.after, hitems, List.flatMap_cons]
    · rw [List.length_cons]
      omega
    · rw [read_of_not_atEnd h, Outline.after, List.length_append, hone]
      omega

end Program

namespace Expr

open Reading

/-- The calls of the readers of expressions. One of a chain is a turn of its loop. -/
inductive Call
  | assignment (ts : List Token)
  | tier (t : Tier) (ts : List Token)
  | chain (t : Tier) (left : Expr) (ts : List Token)
  | operand (ts : List Token)

namespace Call

def tokens : Call → List Token
  | assignment ts | tier _ ts | chain _ _ ts | operand ts => ts

def reading : Call → Reading Expr
  | assignment ts => read ts
  | tier t ts => readTier t ts
  | chain t left ts => readChain t left ts
  | operand ts => readOperand ts

end Call

/-- How a call runs: the calls that it makes, one after another, what they give, and how many they
are in all, with those that they make themselves and with the call itself. -/
inductive Runs : Call → Reading Expr → Nat → Prop
  | failedLeft {ts : List Token} {r : Reading Expr} {e : SyntaxError} {n : Nat}
      (h : Runs (.tier .equality ts) r n) (he : r.result = .error e) :
    Runs (.assignment ts) r (n + 1)
  | plain {ts : List Token} {r : Reading Expr} {left : Expr} {n : Nat}
      (h : Runs (.tier .equality ts) r n) (hleft : r.result = .ok left)
      (hrest : ∀ t ∈ r.rest.head?, t.kind ≠ .symbol .equal) : Runs (.assignment ts) r (n + 1)
  | assigned {ts us : List Token} {r s : Reading Expr} {left : Expr} {equals : Token} {n m : Nat}
      (h : Runs (.tier .equality ts) r n) (hleft : r.result = .ok left)
      (hrest : r.rest = equals :: us) (hequals : equals.kind = .symbol .equal)
      (hvalue : Runs (.assignment us) s m) :
    Runs (.assignment ts) (r.bind fun _ _ => s.bind (assignTo left equals)) (n + m + 1)
  | unary {ts : List Token} {r : Reading Expr} {n : Nat} (h : Runs (.operand ts) r n) :
    Runs (.tier .unary ts) r (n + 1)
  | failedFirst {t : Tier} {ts : List Token} {r : Reading Expr} {e : SyntaxError} {n : Nat}
      (ht : t ≠ .unary) (h : Runs (.tier t.operand ts) r n) (he : r.result = .error e) :
    Runs (.tier t ts) r (n + 1)
  | first {t : Tier} {ts : List Token} {r s : Reading Expr} {left : Expr} {n m : Nat}
      (ht : t ≠ .unary) (h : Runs (.tier t.operand ts) r n) (hleft : r.result = .ok left)
      (hmore : Runs (.chain t left r.rest) s m) :
    Runs (.tier t ts) (r.bind fun _ _ => s) (n + m + 1)
  | last {t : Tier} {left : Expr} {ts : List Token}
      (h : ∀ op ∈ ts.head?, op.kind.tier? ≠ some t) : Runs (.chain t left ts) (done left ts) 1
  | failedRight {t : Tier} {left : Expr} {op : Token} {ts : List Token} {r : Reading Expr}
      {e : SyntaxError} {n : Nat} (hop : op.kind.tier? = some t)
      (h : Runs (.tier t.operand ts) r n) (he : r.result = .error e) :
    Runs (.chain t left (op :: ts)) r (n + 1)
  | link {t : Tier} {left right : Expr} {op : Token} {ts : List Token} {r s : Reading Expr}
      {n m : Nat} (hop : op.kind.tier? = some t) (h : Runs (.tier t.operand ts) r n)
      (hright : r.result = .ok right) (hmore : Runs (.chain t (.binary left op right) r.rest) s m) :
    Runs (.chain t left (op :: ts)) (r.bind fun _ _ => s) (n + m + 1)
  | signed {t : Token} {ts : List Token} {r : Reading Expr} {n : Nat} (ht : t.kind.isUnary)
      (h : Runs (.operand ts) r n) :
    Runs (.operand (t :: ts)) (r.bind fun right => done (.unary t right)) (n + 1)
  | grouping {t : Token} {ts : List Token} {r : Reading Expr} {n : Nat}
      (ht : t.kind = .symbol .leftParen) (h : Runs (.assignment ts) r n) :
    Runs (.operand (t :: ts)) (r.bind closeGrouping) (n + 1)
  | single {ts : List Token}
      (h : ∀ t ∈ ts.head?, ¬t.kind.isUnary ∧ t.kind ≠ .symbol .leftParen) :
    Runs (.operand ts) (readOperand ts) 1

theorem result_ne {r : Reading Expr} {e : SyntaxError} {a : Expr} (he : r.result = .error e) :
    r.result ≠ .ok a := by
  rw [he]
  exact nofun

/-- A call runs in one way only. -/
theorem Runs.unique {c : Call} {r s : Reading Expr} {n m : Nat} (h : Runs c r n)
    (h' : Runs c s m) : r = s ∧ n = m := by
  induction h generalizing s m with
  | failedLeft h he ih =>
    cases h' with
    | failedLeft h' =>
      obtain ⟨rfl, rfl⟩ := ih h'
      exact ⟨rfl, rfl⟩
    | plain h' hleft =>
      obtain ⟨rfl, rfl⟩ := ih h'
      exact absurd hleft (result_ne he)
    | assigned h' hleft =>
      obtain ⟨rfl, rfl⟩ := ih h'
      exact absurd hleft (result_ne he)
  | plain h hleft hrest ih =>
    cases h' with
    | failedLeft h' he =>
      obtain ⟨rfl, rfl⟩ := ih h'
      exact absurd hleft (result_ne he)
    | plain h' =>
      obtain ⟨rfl, rfl⟩ := ih h'
      exact ⟨rfl, rfl⟩
    | assigned h' _ hrest' hequals =>
      obtain ⟨rfl, rfl⟩ := ih h'
      exact absurd hequals (hrest _ (by rw [hrest']; rfl))
  | assigned h hleft hrest hequals hvalue ih ihv =>
    cases h' with
    | failedLeft h' he =>
      obtain ⟨rfl, rfl⟩ := ih h'
      exact absurd hleft (result_ne he)
    | plain h' _ hrest' =>
      obtain ⟨rfl, rfl⟩ := ih h'
      exact absurd hequals (hrest' _ (by rw [hrest]; rfl))
    | assigned h' hleft' hrest' _ hvalue' =>
      obtain ⟨rfl, rfl⟩ := ih h'
      obtain ⟨rfl, rfl⟩ := List.cons.inj (hrest.symm.trans hrest')
      obtain ⟨rfl, rfl⟩ := ihv hvalue'
      obtain rfl := Except.ok.inj (hleft.symm.trans hleft')
      exact ⟨rfl, rfl⟩
  | unary h ih =>
    cases h' with
    | unary h' =>
      obtain ⟨rfl, rfl⟩ := ih h'
      exact ⟨rfl, rfl⟩
    | failedFirst ht => exact absurd rfl ht
    | first ht => exact absurd rfl ht
  | failedFirst ht h he ih =>
    cases h' with
    | unary => exact absurd rfl ht
    | failedFirst _ h' =>
      obtain ⟨rfl, rfl⟩ := ih h'
      exact ⟨rfl, rfl⟩
    | first _ h' hleft =>
      obtain ⟨rfl, rfl⟩ := ih h'
      exact absurd hleft (result_ne he)
  | first ht h hleft hmore ih ihm =>
    cases h' with
    | unary => exact absurd rfl ht
    | failedFirst _ h' he =>
      obtain ⟨rfl, rfl⟩ := ih h'
      exact absurd hleft (result_ne he)
    | first _ h' hleft' hmore' =>
      obtain ⟨rfl, rfl⟩ := ih h'
      obtain rfl := Except.ok.inj (hleft.symm.trans hleft')
      obtain ⟨rfl, rfl⟩ := ihm hmore'
      exact ⟨rfl, rfl⟩
  | last h =>
    cases h' with
    | last => exact ⟨rfl, rfl⟩
    | failedRight hop => exact absurd hop (h _ rfl)
    | link hop => exact absurd hop (h _ rfl)
  | failedRight hop h he ih =>
    cases h' with
    | last h' => exact absurd hop (h' _ rfl)
    | failedRight _ h' =>
      obtain ⟨rfl, rfl⟩ := ih h'
      exact ⟨rfl, rfl⟩
    | link _ h' hright =>
      obtain ⟨rfl, rfl⟩ := ih h'
      exact absurd hright (result_ne he)
  | link hop h hright hmore ih ihm =>
    cases h' with
    | last h' => exact absurd hop (h' _ rfl)
    | failedRight _ h' he =>
      obtain ⟨rfl, rfl⟩ := ih h'
      exact absurd hright (result_ne he)
    | link _ h' hright' hmore' =>
      obtain ⟨rfl, rfl⟩ := ih h'
      obtain rfl := Except.ok.inj (hright.symm.trans hright')
      obtain ⟨rfl, rfl⟩ := ihm hmore'
      exact ⟨rfl, rfl⟩
  | signed ht h ih =>
    cases h' with
    | signed _ h' =>
      obtain ⟨rfl, rfl⟩ := ih h'
      exact ⟨rfl, rfl⟩
    | grouping ht' => simp [Token.Kind.isUnary, ht'] at ht
    | single h' => exact absurd ht (h' _ rfl).1
  | grouping ht h ih =>
    cases h' with
    | signed ht' => simp [Token.Kind.isUnary, ht] at ht'
    | grouping _ h' =>
      obtain ⟨rfl, rfl⟩ := ih h'
      exact ⟨rfl, rfl⟩
    | single h' => exact absurd ht (h' _ rfl).2
  | single h =>
    cases h' with
    | signed ht => exact absurd ht (h _ rfl).1
    | grouping ht => exact absurd ht (h _ rfl).2
    | single => exact ⟨rfl, rfl⟩

/-- A number of calls that the tokens taken allow for. Each token allows for eleven: one on each of
the five tiers, a turn in each of the four loops, one for an operand and one for an assignment. Where
reading succeeds some of these are spare, where it fails some more are needed. -/
def Within (spare more : Nat) (ts : List Token) (r : Reading Expr) (n : Nat) : Prop :=
  match r.result with
  | .ok _ => n + spare + 11 * r.rest.length ≤ 11 * ts.length + 1
  | .error _ => n + 11 * r.rest.length ≤ 11 * ts.length + more

/-- The call ends with its reading, after as many calls as are allowed for. -/
def Settles (spare more : Nat) (c : Call) : Prop :=
  ∃ n, Runs c c.reading n ∧ Within spare more c.tokens c.reading n

section Within

variable {spare more spare' more' n m : Nat} {ts us : List Token} {r : Reading Expr} {a : Expr}
  {e : SyntaxError} {f : Expr → List Token → Reading Expr}

theorem within_ok (h : r.result = .ok a) :
    Within spare more ts r n ↔ n + spare + 11 * r.rest.length ≤ 11 * ts.length + 1 := by
  rw [Within, h]

theorem within_error (h : r.result = .error e) :
    Within spare more ts r n ↔ n + 11 * r.rest.length ≤ 11 * ts.length + more := by
  rw [Within, h]

theorem within_done (a : Expr) (h : n + spare ≤ 1) : Within spare more ts (done a ts) n := by
  rw [within_ok rfl]
  exact Nat.add_comm _ 1 ▸ Nat.add_le_add_right h _

theorem within_bind (h : r.result = .ok a) :
    Within spare more ts (r.bind f) n ↔ Within spare more ts (f a r.rest) n := by
  rw [bind_of_ok h, Within, Within]

/-- What is allowed for after some calls, when their tokens allowed for them. -/
theorem Within.after (h : Within spare' more' us r m)
    (hok : n + spare + 11 * us.length ≤ 11 * ts.length + spare')
    (herror : n + 11 * us.length + more' ≤ 11 * ts.length + more) :
    Within spare more ts r (n + m) := by
  cases hres : r.result with
  | error e =>
    rw [within_error hres] at h ⊢
    omega
  | ok a =>
    rw [within_ok hres] at h ⊢
    omega

/-- What takes a token where it succeeds allows for a dozen calls then. -/
theorem within_of_advances (h : r.Advances ts) (hok : n + spare ≤ 12) (herror : n ≤ more) :
    Within spare more ts r n := by
  have hle := h.1.length_le
  cases hres : r.result with
  | error e =>
    rw [within_error hres]
    omega
  | ok a =>
    have hlt := h.2 a hres
    rw [within_ok hres]
    omega

theorem bind_eq_self (h : r.result = .error e) : r.bind f = r := by
  rw [bind_error h, ← h]

theorem bind_done_eq_self (h : r.result = .ok a) : (r.bind fun _ _ => done a r.rest) = r := by
  rw [bind_of_ok h, done, List.append_nil, ← h]

theorem within_bind_assignTo {left : Expr} {equals : Token} :
    Within spare more ts (r.bind (assignTo left equals)) n ↔ Within spare more ts r n := by
  cases hres : r.result with
  | error e => rw [bind_eq_self hres]
  | ok value =>
    rw [within_bind hres, within_ok hres]
    cases left <;> exact within_ok rfl

theorem bind_eq_const (h : r.result = .ok a) : r.bind f = r.bind fun _ _ => f a r.rest := by
  rw [bind_of_ok h, bind_of_ok h]

end Within

/-- A call that makes another one first, and then those that the result of this calls for. -/
theorem Settles.bind (spare₂ more₂ : Nat) {c first : Call} {f : Expr → List Token → Reading Expr}
    {spare more spare₁ more₁ : Nat} (h : Settles spare₁ more₁ first)
    (hread : c.reading = first.reading.bind f)
    (fails : ∀ n e, Runs first first.reading n → first.reading.result = .error e →
      Runs c first.reading (n + 1))
    (goes : ∀ n a, Runs first first.reading n → first.reading.result = .ok a →
      ∃ m, Runs c (first.reading.bind fun _ _ => f a first.reading.rest) (n + m + 1) ∧
        Within spare₂ more₂ first.reading.rest (f a first.reading.rest) m)
    (hfails : 11 * first.tokens.length + more₁ + 1 ≤ 11 * c.tokens.length + more)
    (hok : 11 * first.tokens.length + spare + 2 ≤ 11 * c.tokens.length + spare₁ + spare₂)
    (herror : 11 * first.tokens.length + more₂ + 2 ≤ 11 * c.tokens.length + spare₁ + more) :
    Settles spare more c := by
  obtain ⟨n, hruns, hn⟩ := h
  unfold Settles
  rw [hread]
  cases hres : first.reading.result with
  | error e =>
    rw [bind_eq_self hres]
    rw [within_error hres] at hn
    refine ⟨n + 1, fails n e hruns hres, (within_error hres).2 ?_⟩
    omega
  | ok a =>
    obtain ⟨m, hruns', hm⟩ := goes n a hruns hres
    rw [bind_eq_const hres]
    rw [within_ok hres] at hn
    refine ⟨n + m + 1, hruns', (within_bind hres).2 ?_⟩
    rw [Nat.add_right_comm]
    exact hm.after (by omega) (by omega)

theorem settles_operand {ts : List Token}
    (h : ∀ us : List Token, us.length < ts.length →
      Settles 1 7 (.assignment us) ∧ Settles 11 1 (.operand us)) :
    Settles 11 1 (.operand ts) := by
  have single (hts : ∀ t ∈ ts.head?, ¬t.kind.isUnary ∧ t.kind ≠ .symbol .leftParen) :
      Settles 11 1 (.operand ts) :=
    ⟨1, .single hts, within_of_advances (advances_readOperand ts) (Nat.le_refl _) (Nat.le_refl _)⟩
  cases ts with
  | nil => exact single (by simp)
  | cons t us =>
    obtain ⟨hassignment, hoperand⟩ := h us (Nat.lt_succ_self _)
    by_cases hsign : t.kind.isUnary
    · have hread : readOperand (t :: us) =
          (readOperand us).bind fun right => done (unary t right) := by
        rw [readOperand_cons, if_pos hsign]
      refine hoperand.bind 1 0 hread (fun n e hruns he => ?_) (fun n right hruns hright => ?_)
        ?_ ?_ ?_
      · rw [← bind_eq_self he]
        exact .signed hsign hruns
      · refine ⟨0, ?_, within_done _ (Nat.le_refl _)⟩
        have hconst := bind_eq_const (f := fun right => done (unary t right)) hright
        rw [← hconst]
        exact .signed hsign hruns
      all_goals simp only [Call.tokens, List.length_cons]; omega
    by_cases hparen : t.kind = .symbol .leftParen
    · have hread : readOperand (t :: us) = (read us).bind closeGrouping := by
        rw [readOperand_cons, if_neg hsign, if_pos hparen]
      refine hassignment.bind 12 0 hread (fun n e hruns he => ?_) (fun n inner hruns hinner => ?_)
        ?_ ?_ ?_
      · rw [← bind_eq_self he]
        exact .grouping hparen hruns
      · refine ⟨0, ?_, within_of_advances (advances_closeGrouping inner _) (Nat.le_refl _)
          (Nat.le_refl _)⟩
        rw [← bind_eq_const hinner]
        exact .grouping hparen hruns
      all_goals simp only [Call.tokens, List.length_cons]; omega
    · exact single (by simp [hsign, hparen])

theorem settles_chain {t : Tier} (left : Expr) {ts : List Token}
    (h : ∀ us : List Token, us.length < ts.length →
      (∀ t, Settles (10 - 2 * t.rank) (t.rank + 2) (.tier t us)) ∧
      ∀ left, Settles 0 0 (.chain t left us)) :
    Settles 0 0 (.chain t left ts) := by
  have last (hts : ∀ op ∈ ts.head?, op.kind.tier? ≠ some t)
      (hread : readChain t left ts = done left ts) : Settles 0 0 (.chain t left ts) := by
    unfold Settles
    rw [Call.reading, hread]
    exact ⟨1, .last hts, within_done left (Nat.le_refl _)⟩
  cases ts with
  | nil => exact last (by simp) (readChain_nil t left)
  | cons op us =>
    by_cases hop : op.kind.tier? = some t
    · have hread : readChain t left (op :: us) =
          (readTier t.operand us).bind fun right => readChain t (binary left op right) := by
        rw [readChain_cons, if_pos hop]
      have hrank := t.operand.rank_le
      refine ((h us (Nat.lt_succ_self _)).1 t.operand).bind 0 0 hread
        (fun n e hruns he => .failedRight hop hruns he) (fun n right hruns hright => ?_) ?_ ?_ ?_
      · have hlt := (advances_readTier t.operand us).2 right hright
        obtain ⟨m, hmore, hm⟩ := (h _ (Nat.lt_succ_of_lt hlt)).2 (binary left op right)
        exact ⟨m, .link hop hruns hright hmore, hm⟩
      all_goals simp only [Call.tokens, List.length_cons]; omega
    · refine last (by simpa using hop) ?_
      rw [readChain_cons, if_neg hop]

theorem settles_unary {ts : List Token} (h : Settles 11 1 (.operand ts)) :
    Settles 10 2 (.tier .unary ts) := by
  obtain ⟨n, hruns, hn⟩ := h
  unfold Settles
  rw [Call.reading, readTier_unary]
  refine ⟨n + 1, .unary hruns, ?_⟩
  rw [Nat.add_comm n 1]
  apply hn.after
  all_goals simp only [Call.tokens]; omega

theorem settles_tier {t : Tier} (ht : t ≠ .unary) {ts : List Token}
    (hfirst : Settles (10 - 2 * t.operand.rank) (t.operand.rank + 2) (.tier t.operand ts))
    (hmore : ∀ left us, us.length < ts.length → Settles 0 0 (.chain t left us)) :
    Settles (10 - 2 * t.rank) (t.rank + 2) (.tier t ts) := by
  have hrank : t.operand.rank + 1 = t.rank := by cases t <;> first | rfl | exact absurd rfl ht
  have hle := t.rank_le
  refine hfirst.bind 0 0 (readTier_eq ht ts) (fun n e hruns he => .failedFirst ht hruns he)
    (fun n left hruns hleft => ?_) ?_ ?_ ?_
  · have hlt := (advances_readTier t.operand ts).2 left hleft
    obtain ⟨m, hmore, hm⟩ := hmore left _ hlt
    exact ⟨m, .first ht hruns hleft hmore, hm⟩
  all_goals simp only [Call.tokens]; omega

theorem exists_runs_assigned {ts : List Token} {r : Reading Expr} {left : Expr} {n : Nat}
    (h : Runs (.tier .equality ts) r n) (hleft : r.result = .ok left)
    (hvalue : ∀ us : List Token, us.length < r.rest.length → Settles 1 7 (.assignment us)) :
    ∃ m, Runs (.assignment ts) (r.bind fun _ _ => readAssigned left r.rest) (n + m + 1) ∧
      Within 1 0 r.rest (readAssigned left r.rest) m := by
  have plain (hrest : ∀ t ∈ r.rest.head?, t.kind ≠ .symbol .equal)
      (hdone : readAssigned left r.rest = done left r.rest) :
      ∃ m, Runs (.assignment ts) (r.bind fun _ _ => readAssigned left r.rest) (n + m + 1) ∧
        Within 1 0 r.rest (readAssigned left r.rest) m := by
    rw [hdone, bind_done_eq_self hleft]
    exact ⟨0, .plain h hleft hrest, within_done left (Nat.le_refl _)⟩
  cases hrest : r.rest with
  | nil =>
    rw [hrest] at plain
    exact plain (by simp) rfl
  | cons equals us =>
    by_cases hequals : equals.kind = .symbol .equal
    · obtain ⟨m, hruns, hm⟩ := hvalue us (by rw [hrest]; exact Nat.lt_succ_self _)
      rw [readAssigned, if_pos hequals]
      refine ⟨m, .assigned h hleft hrest hequals hruns, within_bind_assignTo.2 ?_⟩
      rw [← Nat.zero_add m]
      apply hm.after
      all_goals simp only [Call.tokens, List.length_cons]; omega
    · rw [hrest] at plain
      exact plain (by simpa using hequals) (if_neg hequals)

theorem settles_assignment {ts : List Token} (hleft : Settles 2 6 (.tier .equality ts))
    (hvalue : ∀ us : List Token, us.length < ts.length → Settles 1 7 (.assignment us)) :
    Settles 1 7 (.assignment ts) := by
  refine hleft.bind 1 0 (read_eq ts) (fun n e hruns he => .failedLeft hruns he)
    (fun n left hruns hleft => ?_) ?_ ?_ ?_
  · have hlt := (advances_readTier .equality ts).2 left hleft
    exact exists_runs_assigned hruns hleft fun us hus => hvalue us (Nat.lt_trans hus hlt)
  all_goals simp only [Call.tokens]; omega

theorem settles_readers (ts : List Token) :
    Settles 1 7 (.assignment ts) ∧
    (∀ t, Settles (10 - 2 * t.rank) (t.rank + 2) (.tier t ts)) ∧
    (∀ t left, Settles 0 0 (.chain t left ts)) ∧ Settles 11 1 (.operand ts) := by
  apply readers_induction (A := fun ts => Settles 1 7 (.assignment ts))
    (O := fun ts => Settles 11 1 (.operand ts))
    (L := fun t ts => Settles (10 - 2 * t.rank) (t.rank + 2) (.tier t ts))
    (C := fun t left ts => Settles 0 0 (.chain t left ts))
  case operand => exact fun ts h => settles_operand h
  case chain =>
    intro t left ts h
    exact settles_chain left h
  case unary => exact fun ts h => settles_unary h
  case tier => exact fun t ts ht hfirst hmore => settles_tier ht hfirst hmore
  case assignment => exact fun ts hleft hvalue => settles_assignment hleft hvalue

/-- Every call ends with its reading. It makes a number of calls linear in the tokens taken. -/
theorem exists_runs (c : Call) :
    ∃ n, Runs c c.reading n ∧ n + 11 * c.reading.rest.length ≤ 11 * c.tokens.length + 7 := by
  have hlinear {spare more : Nat} (hmore : more ≤ 7) (h : Settles spare more c) :
      ∃ n, Runs c c.reading n ∧ n + 11 * c.reading.rest.length ≤ 11 * c.tokens.length + 7 := by
    obtain ⟨n, hruns, hn⟩ := h
    refine ⟨n, hruns, ?_⟩
    cases hres : c.reading.result with
    | error e =>
      rw [within_error hres] at hn
      omega
    | ok a =>
      rw [within_ok hres] at hn
      omega
  obtain ⟨hassignment, htier, hchain, hoperand⟩ := settles_readers c.tokens
  cases c with
  | assignment ts => exact hlinear (by omega) hassignment
  | tier t ts =>
    have hrank := t.rank_le
    exact hlinear (by omega) (htier t)
  | chain t left ts => exact hlinear (by omega) (hchain t left)
  | operand ts => exact hlinear (by omega) hoperand

end Expr

namespace Program

/-- Reading gets on and ends. Where a statement is read, it and what is skipped after it take a
token before the first marker of the end, and one more for each complaint. So there are at most as
many statements, and as many items, as there are such tokens. Every call of the readers of expressions,
and every turn of their loops, has one way to run, and this ends. -/
theorem read_progresses :
    (∀ ts, ¬atEnd ts → ∃ taken, taken ++ following (Stmt.read ts) = ts ∧ NoneEnds taken ∧
      (Stmt.read ts).notes.length + 1 ≤ taken.length) ∧
    (∀ ts, ∃ rs, Turns ts rs ∧ (read ts).items = rs.flatMap itemsOf ∧
      rs.length ≤ (beforeEnd ts).length ∧ (read ts).items.length ≤ (beforeEnd ts).length) ∧
    ∀ c : Expr.Call, ∃ n, (∀ r m, Expr.Runs c r m ↔ r = c.reading ∧ m = n) ∧
      n + 11 * c.reading.rest.length ≤ 11 * c.tokens.length + 7 := by
  refine ⟨fun _ => exists_taken_up, exists_turns, fun c => ?_⟩
  obtain ⟨n, hruns, hn⟩ := Expr.exists_runs c
  refine ⟨n, fun r m => ⟨fun h => h.unique hruns, ?_⟩, hn⟩
  rintro ⟨rfl, rfl⟩
  exact hruns

end Program

end TreeWalk

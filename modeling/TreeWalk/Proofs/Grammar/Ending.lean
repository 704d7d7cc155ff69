import TreeWalk.Proofs.Grammar.Resuming
import TreeWalk.Proofs.Grammar.Tokens

/-! The marker of the end. What stands behind the first one is never looked at. Where there is none,
the end of the list does as well, and only the error there is another. -/
namespace TreeWalk

open Token

/-- The error of the same failure where the list ends without its marker. -/
def SyntaxError.unmarked (ending : Token) : SyntaxError → SyntaxError
  | atToken t cause => if t = ending then endOfInput else atToken t cause
  | endOfInput => endOfInput

def Item.unmarked (ending : Token) : Item → Item
  | stmt s => stmt s
  | error e => error (e.unmarked ending)

def Reading.unmarked {α : Type} (ending : Token) (r : Reading α) : Reading α :=
  { r with result := r.result.mapError (SyntaxError.unmarked ending) }

variable {ts : List Token} {ending : Terminal .endOfFile}

theorem SyntaxError.unmarked_of_kind {t : Token} (ht : t.kind ≠ .endOfFile)
    (cause : SyntaxError.Cause) :
    (SyntaxError.atToken t cause).unmarked ending.val = .atToken t cause := by
  unfold unmarked
  apply if_neg
  rintro rfl
  exact ht ending.property

namespace Stmt

open Reading Grammar

/-- Complaints are never at the marker. -/
theorem unmarked_of_mem_notes {n : SyntaxError} (hn : n ∈ (read ts).notes) :
    n.unmarked ending.val = n := by
  obtain ⟨front, -, hinner, hnotes⟩ := (accounts_readOpen ts).taken
  rw [notes_read] at hn
  obtain ⟨t, ht, -, rfl⟩ := hnotes n hn
  exact SyntaxError.unmarked_of_kind (hinner t ht).2 _

/-- The marker is left in place. -/
theorem exists_rest_eq_append (ts : List Token) (ending : Terminal .endOfFile) :
    ∃ taken rest, ts = taken ++ rest ∧
      (read (ts ++ [ending.val])).rest = rest ++ [ending.val] := by
  obtain ⟨taken, htaken, hends⟩ := exists_taken (ts ++ [ending.val])
  obtain ⟨rest, hts, hrest⟩ :=
    exists_append_of_not_mem htaken fun hmem => hends _ hmem ending.property
  exact ⟨taken, rest, hts, hrest⟩

/-- Without the marker a statement is read as with it, but for an error at the marker. -/
theorem read_eq_unmarked {taken rest : List Token} (h : NoneEnds (taken ++ rest))
    (hrest : (read (taken ++ rest ++ [ending.val])).rest = rest ++ [ending.val]) :
    read (taken ++ rest) =
      { (read (taken ++ rest ++ [ending.val])).unmarked ending.val with rest } := by
  cases hres : (read (taken ++ rest ++ [ending.val])).result with
  | ok s =>
    obtain ⟨d, us, hd⟩ := Declaration.exists_of_read_ok hres
    have hread : read (taken ++ rest ++ [ending.val]) = ⟨d.notes, .ok d.tree, us⟩ := by
      rw [hd, d.read_tokens]
    rw [hread] at hrest ⊢
    obtain rfl : us = rest ++ [ending.val] := hrest
    rw [← List.append_assoc] at hd
    rw [List.append_cancel_right hd, d.read_tokens]
    rfl
  | error e =>
    have hblames := blames_read hres
    rw [hrest] at hblames
    cases rest with
    | nil =>
      obtain ⟨cause, -, rfl⟩ := hblames
      rw [List.append_nil] at hrest hres ⊢
      have htaken : taken ++ (read (taken ++ [ending.val])).rest = taken ++ [ending.val] := by
        rw [hrest]
        rfl
      rw [read_of_taken htaken hres, Reading.unmarked, hres]
      simp [Except.mapError, SyntaxError.unmarked]
    | cons t rest =>
      obtain ⟨cause, -, rfl⟩ := hblames
      have ht : (SyntaxError.atToken t cause).unmarked ending.val = .atToken t cause :=
        SyntaxError.unmarked_of_kind (h t (by simp)) cause
      have hsplit : taken ++ t :: rest ++ [ending.val] = taken ++ t :: (rest ++ [ending.val]) := by
        simp
      rw [hsplit] at hrest hres ⊢
      rw [read_of_error_at hres hrest rest, Reading.unmarked, hres, Except.mapError, ht]

/-- A statement before the marker of the end is read in one way, whatever stands behind the marker,
and in the same way where there is none, but for an error at the marker. -/
theorem exists_read_eq_before (h : NoneEnds ts) (ending : Terminal .endOfFile) :
    ∃ r : Reading Stmt,
      (∀ us, read (ts ++ ending.val :: us) = r.before (ending.val :: us)) ∧
      read ts = r.unmarked ending.val := by
  obtain ⟨taken, rest, rfl, hrest⟩ := exists_rest_eq_append ts ending
  refine ⟨{ read (taken ++ rest ++ [ending.val]) with rest }, fun us => ?_, ?_⟩
  · have hne : (read (taken ++ rest ++ [ending.val])).rest ≠ [] := by
      rw [hrest]
      simp
    rw [List.append_cons, (extends_read us _).before hne, before, before, hrest]
    simp
  · exact read_eq_unmarked h hrest

end Stmt

namespace Program

open Grammar

/-- Recovery stops before the marker of the end, or where the list does. -/
theorem resumeAfter_append_ending (h : NoneEnds ts) (dropped : Token) (us : List Token) :
    resumeAfter dropped (ts ++ ending.val :: us) = resumeAfter dropped ts ++ ending.val :: us := by
  induction ts generalizing dropped with
  | nil =>
    unfold resumeAfter
    exact if_pos (.inr (.inl ending.property))
  | cons t ts ih =>
    obtain ⟨-, hts⟩ := List.forall_mem_cons.1 h
    rw [List.cons_append, resumeAfter, resumeAfter, ih hts]
    split
    · rfl
    · rfl

theorem resume_append_ending (h : NoneEnds ts) (us : List Token) :
    resume (ts ++ ending.val :: us) = resume ts ++ ending.val :: us := by
  cases ts with
  | nil =>
    unfold resume
    exact if_pos ending.property
  | cons t ts =>
    obtain ⟨ht, hts⟩ := List.forall_mem_cons.1 h
    rw [List.cons_append, resume, resume, if_neg ht, if_neg ht, resumeAfter_append_ending hts]

theorem following_before_ending {r : Reading Stmt} (h : NoneEnds r.rest) (us : List Token) :
    following (r.before (ending.val :: us)) = following r ++ ending.val :: us := by
  unfold following Reading.before
  cases r.result with
  | ok s => rfl
  | error e => exact resume_append_ending h us

theorem following_unmarked (r : Reading Stmt) :
    following (r.unmarked ending.val) = following r := by
  unfold following Reading.unmarked
  cases r.result <;> rfl

theorem itemsOf_unmarked {r : Reading Stmt}
    (h : ∀ n ∈ r.notes, n.unmarked ending.val = n) :
    itemsOf (r.unmarked ending.val) = (itemsOf r).map (Item.unmarked ending.val) := by
  have hnotes : (r.notes.map Item.error).map (Item.unmarked ending.val) =
      r.notes.map Item.error := by
    rw [List.map_map]
    apply List.map_congr_left
    intro n hn
    exact congrArg Item.error (h n hn)
  unfold itemsOf Reading.unmarked
  rw [List.map_append, hnotes]
  cases r.result <;> rfl

/-- Reading stops before the first marker of the end with the same items, whatever stands behind the
marker. Where there is none, it takes all tokens, and the error at the marker is another. -/
theorem exists_items_before_ending (h : NoneEnds ts) (ending : Terminal .endOfFile) :
    ∃ items, (∀ us, read (ts ++ ending.val :: us) = ⟨items, ending.val :: us⟩) ∧
      read ts = ⟨items.map (Item.unmarked ending.val), []⟩ := by
  induction ts using read_induction with
  | ending ts hend =>
    cases ts with
    | nil => exact ⟨[], fun us => read_of_atEnd (by simp [atEnd, ending.property]), read_of_atEnd rfl⟩
    | cons t ts => exact absurd (by simpa [atEnd] using hend) (h t (by simp))
  | next ts hend ih =>
    obtain ⟨r, hmarked, hplain⟩ := Stmt.exists_read_eq_before h ending
    have hrest : NoneEnds r.rest := by
      intro t ht
      have hsuffix := (Stmt.advances_read ts).1
      rw [hplain] at hsuffix
      exact h t (hsuffix.subset ht)
    have hnotes : ∀ n ∈ r.notes, SyntaxError.unmarked ending.val n = n := by
      intro n hn
      have hmem : n ∈ (Stmt.read ts).notes := by rwa [hplain]
      exact Stmt.unmarked_of_mem_notes hmem
    have hfollowing : following (Stmt.read ts) = following r := by rw [hplain, following_unmarked]
    obtain ⟨items, hitems, hitems'⟩ := ih fun t ht => h t ((following_read_suffix ts).subset ht)
    rw [hfollowing] at hitems hitems'
    refine ⟨itemsOf r ++ items, fun us => ?_, ?_⟩
    · have hgo : ¬atEnd (ts ++ ending.val :: us) := by
        cases ts with
        | nil => exact absurd rfl hend
        | cons t ts => exact hend
      rw [read_of_not_atEnd hgo, hmarked, following_before_ending hrest, hitems]
      rfl
    · rw [read_of_not_atEnd hend, hfollowing, hitems', hplain, itemsOf_unmarked hnotes,
        Outline.after, List.map_append]

/-- What reading leaves is nothing, or begins with the marker of the end. -/
theorem atEnd_rest_read (ts : List Token) : atEnd (read ts).rest := by
  induction ts using read_induction with
  | ending ts h => rwa [read_of_atEnd h]
  | next ts h ih => rwa [read_of_not_atEnd h]

/-- The first marker of the end is a wall. What stands behind it changes none of the items before
it, and is left with it. Without the marker the items are the same, but an error at the marker is
then that the input ends. What reading has left of any tokens gives no items when it is read. -/
theorem read_up_to_ending (h : NoneEnds ts) (ending : Terminal .endOfFile) :
    (∀ us, read (ts ++ [ending.val] ++ us) =
      ⟨(read (ts ++ [ending.val])).items, ending.val :: us⟩) ∧
    (read ts).items = (read (ts ++ [ending.val])).items.map (Item.unmarked ending.val) ∧
    ∀ vs, (read (read vs).rest).items = [] := by
  obtain ⟨items, hmarked, hplain⟩ := exists_items_before_ending h ending
  refine ⟨fun us => ?_, ?_, fun vs => ?_⟩
  · rw [← List.append_cons, hmarked us, hmarked []]
  · rw [hplain, hmarked []]
  · rw [read_of_atEnd (atEnd_rest_read vs)]

/-- In `true = false; print` the error at the end is the only one that the marker changes. -/
theorem read_up_to_ending_print :
    ∃ (equals ending : Token) (ts us : List Token),
      ts = [⟨.keyword .trueKw, "true", 1⟩, equals, ⟨.keyword .falseKw, "false", 1⟩,
        ⟨.symbol .semicolon, ";", 1⟩, ⟨.keyword .printKw, "print", 1⟩] ∧
      us = [⟨.identifier, "x", 2⟩, ⟨.symbol .semicolon, ";", 2⟩] ∧ NoneEnds ts ∧
      read (ts ++ [ending] ++ us) =
        ⟨[.error (.atToken equals .invalidTarget), .stmt (.expression (.literal (.boolean true))),
          .error (.atToken ending .missingExpression)], ending :: us⟩ ∧
      (read ts).items =
        [.error (.atToken equals .invalidTarget), .stmt (.expression (.literal (.boolean true))),
          .error .endOfInput] := by
  let equals : Token := ⟨.symbol .equal, "=", 1⟩
  let ending : Terminal .endOfFile := ⟨⟨.endOfFile, "", 1⟩, rfl⟩
  let ts : List Token := [⟨.keyword .trueKw, "true", 1⟩, equals, ⟨.keyword .falseKw, "false", 1⟩,
    ⟨.symbol .semicolon, ";", 1⟩, ⟨.keyword .printKw, "print", 1⟩]
  have hends : NoneEnds ts := by simp [NoneEnds, ts, equals]
  have hitems : (read (ts ++ [ending.val])).items =
      [.error (.atToken equals .invalidTarget), .stmt (.expression (.literal (.boolean true))),
        .error (.atToken ending.val .missingExpression)] := by decide +kernel
  obtain ⟨hwall, hplain, -⟩ := read_up_to_ending hends ending
  rw [hitems] at hwall hplain
  exact ⟨equals, ending.val, ts, _, rfl, rfl, hends, hwall _, hplain⟩

end Program

end TreeWalk

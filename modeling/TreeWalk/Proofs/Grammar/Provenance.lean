import TreeWalk.Proofs.Grammar.Viable
import TreeWalk.Proofs.Semantics.Tokens

/-! Where the tokens of errors come from. Reading and running decide by kinds and lexemes, so
nothing that was read from a list changes when all tokens outside that list are marked. -/
namespace TreeWalk

theorem eq_of_map_eq_self {α : Type} {f : α → α} {as : List α} (h : as.map f = as) :
    ∀ a ∈ as, f a = a := by
  rw [← List.map_inj_left]
  simpa using h

/-- The token itself if it is one of the list, else another one. -/
def Token.marked (ts : List Token) (t : Token) : Token :=
  if t ∈ ts then t else { t with line := t.line + 1 }

namespace Token

theorem kind_marked (ts : List Token) (t : Token) : (t.marked ts).kind = t.kind := by
  rw [marked]
  split <;> rfl

theorem lexeme_marked (ts : List Token) (t : Token) : (t.marked ts).lexeme = t.lexeme := by
  rw [marked]
  split <;> rfl

theorem mem_of_marked_eq {ts : List Token} {t : Token} (h : t.marked ts = t) : t ∈ ts := by
  by_cases hmem : t ∈ ts
  · exact hmem
  · rw [marked, if_neg hmem] at h
    exact absurd (congrArg line h) (Nat.succ_ne_self t.line)

theorem map_marked (ts : List Token) : ts.map (marked ts) = ts := by
  have hmarked : ∀ t ∈ ts, marked ts t = id t := fun t ht => if_pos ht
  rw [List.map_congr_left hmarked, List.map_id]

end Token

namespace Program

theorem items_map_marked (ts : List Token) :
    (read ts).items.map (Item.mapTokens (Token.marked ts)) = (read ts).items := by
  have hread := read_map (Token.kind_marked ts) ts
  rw [Token.map_marked] at hread
  exact (congrArg Outline.items hread).symm

/-- An error of syntax is at one of the tokens that were read. -/
theorem token_mem_of_mem_errors {ts : List Token} {t : Token} {cause : SyntaxError.Cause}
    (h : .atToken t cause ∈ errors (read ts).items) : t ∈ ts := by
  have hmarked := errors_map (f := Token.marked ts) (read ts).items
  rw [items_map_marked] at hmarked
  have herror := eq_of_map_eq_self hmarked.symm _ h
  exact Token.mem_of_marked_eq (SyntaxError.atToken.inj herror).1

end Program

/-- A runtime error of what has been read is at one of the tokens that were read. -/
theorem Machine.token_mem_of_run_error {ts : List Token} {m m' : Machine} {e : RuntimeError}
    (h : run (Program.statements (Program.read ts).items) m = .error (.fault (.runtime e)) m') :
    e.token ∈ ts := by
  have hmarked := run_mapTokens (Token.kind_marked ts) (Token.lexeme_marked ts)
    (Program.statements (Program.read ts).items) m
  rw [← Program.statements_map, Program.items_map_marked, h] at hmarked
  simp only [onError, Halt.mapTokens, Fault.mapTokens, RuntimeError.mapTokens,
    EStateM.Result.error.injEq, Halt.fault.injEq, Fault.runtime.injEq] at hmarked
  exact Token.mem_of_marked_eq (congrArg RuntimeError.token hmarked.1).symm

namespace Stmt

open Reading

variable {ts : List Token} {t : Token} (ht : t ∈ ts) (hend : t.kind = .endOfFile)

include ht hend

/-- The marker of the end is left in place. -/
theorem mem_rest_read : t ∈ (read ts).rest := by
  obtain ⟨taken, htaken, hends⟩ := exists_taken ts
  rw [← htaken] at ht
  exact (List.mem_append.1 ht).resolve_left fun hmem => hends t hmem hend

/-- Where the end is marked, no statement runs out of tokens. -/
theorem endOfInput_not_mem_itemsOf : .error .endOfInput ∉ Program.itemsOf (read ts) := by
  rw [Program.itemsOf, List.mem_append, not_or, notes_read]
  constructor
  · obtain ⟨front, -, -, hnotes⟩ := (accounts_readOpen ts).taken
    intro hmem
    obtain ⟨n, hn, heq⟩ := List.mem_map.1 hmem
    obtain ⟨t', -, -, rfl⟩ := hnotes n hn
    cases heq
  · cases hres : (read ts).result with
    | ok s => simp [Item.ofResult]
    | error e =>
      have hrest := mem_rest_read ht hend
      have hblames := blames_read hres
      cases hus : (read ts).rest with
      | nil => simp [hus] at hrest
      | cons next us =>
        rw [hus] at hblames
        obtain ⟨cause, -, rfl⟩ := hblames
        simp [Item.ofResult]

end Stmt

namespace Program

/-- Where the end is marked, the tokens do not run out before it. -/
theorem endOfInput_not_mem_items (inner : List Token) (ending : Terminal .endOfFile) :
    .error .endOfInput ∉ (read (inner ++ [ending.val])).items := by
  -- Reading goes on from ends of the list, and these have its last token unless they are empty.
  suffices h : ∀ ts, ts <:+ inner ++ [ending.val] → .error .endOfInput ∉ (read ts).items from
    h _ List.suffix_rfl
  intro ts hsuffix
  induction ts using read_induction with
  | ending ts h =>
    rw [read_of_atEnd h]
    simp
  | next ts h ih =>
    have hmem : ending.val ∈ ts := by
      rcases List.suffix_concat_iff.1 hsuffix with rfl | ⟨us, hus, -⟩
      · exact absurd rfl h
      · rw [hus]
        exact List.mem_append_right us (List.mem_singleton_self _)
    rw [read_of_not_atEnd h, Outline.after, List.mem_append, not_or]
    exact ⟨Stmt.endOfInput_not_mem_itemsOf hmem ending.property,
      ih ((following_read_suffix ts).trans hsuffix)⟩

end Program

end TreeWalk

import Mathlib.Data.List.DropRight
import Mathlib.Data.List.Forall2
import TreeWalk.Console.Prompt

/-! The lines of an input. A line feed stands at the end of a line or nowhere in it, so the text
that is run for a line has none. -/
namespace TreeWalk

namespace Prompt

/-- The input cut behind each of its line feeds. What is left behind the last of them is a line as
well, unless it is empty. -/
inductive Splits : List UInt8 → List (List UInt8) → Prop
  | nil : Splits [] []
  | last {line : List UInt8} (hne : line ≠ []) (hline : lineFeed ∉ line) : Splits line [line]
  | cons {line rest : List UInt8} {ls : List (List UInt8)} (hline : lineFeed ∉ line)
    (hrest : Splits rest ls) : Splits (line ++ lineFeed :: rest) ((line ++ [lineFeed]) :: ls)

theorem Splits.push {b : UInt8} (hb : b ≠ lineFeed) {bs line : List UInt8}
    {ls : List (List UInt8)} (h : Splits bs (line :: ls)) :
    Splits (b :: bs) ((b :: line) :: ls) := by
  have hpush {line : List UInt8} (hline : lineFeed ∉ line) : lineFeed ∉ b :: line :=
    List.not_mem_cons_of_ne_of_not_mem hb.symm hline
  cases h with
  | last hne hline => exact .last (List.cons_ne_nil b _) (hpush hline)
  | @cons line rest _ hline hrest => exact @Splits.cons (b :: line) rest ls (hpush hline) hrest

theorem splits_lines (input : List UInt8) : Splits input (lines input) := by
  fun_induction lines input with
  | case1 => exact .nil
  | case2 bs ih => exact @Splits.cons [] bs _ (by simp) ih
  | case3 b bs hb hnil ih =>
    have hbs := flatten_lines bs
    rw [hnil, List.flatten_nil] at hbs
    rw [← hbs]
    exact .last (by simp) (by simpa using Ne.symm hb)
  | case4 b bs hb line ls hcons ih => exact .push hb (by rwa [← hcons])

theorem Splits.not_mem_dropLast {input : List UInt8} {ls : List (List UInt8)}
    (h : Splits input ls) : ∀ line ∈ ls, lineFeed ∉ line.dropLast := by
  induction h with
  | nil => simp
  | last hne hline => simpa using fun hmem => hline (List.dropLast_subset _ hmem)
  | cons hline hrest ih => exact List.forall_mem_cons.2 ⟨by simpa using hline, ih⟩

theorem eq_flatMap_of_decode? {bytes : List UInt8} {text : String}
    (h : decode? bytes = some text) : bytes = text.toList.flatMap String.utf8EncodeChar := by
  rw [decode?, String.fromUTF8?] at h
  split at h
  · cases h
    have hbytes := String.utf8Encode_toList (b := String.fromUTF8 bytes.toByteArray ‹_›)
    exact (List.toByteArray_inj.1 hbytes).symm
  · cases h

/-- A text that is encoded as a line is a line itself. -/
theorem not_mem_dropLast_of_decode? {bytes : List UInt8} (h : lineFeed ∉ bytes.dropLast)
    {text : String} (htext : decode? bytes = some text) : '\n' ∉ text.toList.dropLast := by
  rw [eq_flatMap_of_decode? htext] at h
  intro hmem
  have hne : text.toList ≠ [] := by
    intro hnil
    simp [hnil] at hmem
  have hlast : String.utf8EncodeChar (text.toList.getLast hne) ≠ [] := by simp
  rw [← List.dropLast_concat_getLast hne, List.flatMap_append, List.flatMap_singleton,
    List.dropLast_append_of_ne_nil hlast] at h
  refine h (List.mem_append_left _ (List.mem_flatMap.2 ⟨'\n', hmem, ?_⟩))
  decide

/-- The line is the source, followed by no more than carriage returns and line feeds, and the source
itself ends with neither. -/
def Trims (line source : String) : Prop :=
  ∃ ending, line.toList = source.toList ++ ending ∧ (∀ c ∈ ending, c = '\r' ∨ c = '\n') ∧
    ∀ c ∈ source.toList.getLast?, c ≠ '\r' ∧ c ≠ '\n'

theorem trims_trimEnd (line : String) : Trims line (trimEnd line) := by
  have hkept : (trimEnd line).toList = line.toList.rdropWhile fun c => c = '\n' || c = '\r' :=
    String.toList_ofList
  refine ⟨line.toList.rtakeWhile fun c => c = '\n' || c = '\r', ?_, ?_, ?_⟩
  · rw [hkept, List.rdropWhile, List.rtakeWhile, ← List.reverse_append,
      List.takeWhile_append_dropWhile, List.reverse_reverse]
  · intro c hc
    have hend := List.mem_rtakeWhile_imp hc
    simpa [or_comm] using hend
  · intro c hc
    rw [hkept] at hc
    obtain ⟨hne, rfl⟩ := List.mem_getLast?_eq_getLast hc
    have hlast := List.rdropWhile_last_not _ line.toList hne
    simpa [and_comm] using hlast

/-- A line is trimmed to one source only. -/
theorem Trims.unique {line source source' : String} (h : Trims line source)
    (h' : Trims line source') : source = source' := by
  -- What one of the two has beyond the other would belong to the ending of the other.
  have hextra {a b : String} {x : List Char} (hb : b.toList = a.toList ++ x)
      (hx : ∀ c ∈ x, c = '\r' ∨ c = '\n') (hlast : ∀ c ∈ b.toList.getLast?, c ≠ '\r' ∧ c ≠ '\n') :
      a = b := by
    rcases List.eq_nil_or_concat x with rfl | ⟨front, c, rfl⟩
    · rw [List.append_nil] at hb
      exact (String.toList_inj.1 hb).symm
    · rw [hb, List.concat_eq_append, ← List.append_assoc] at hlast
      obtain ⟨hr, hn⟩ := hlast c (by simp)
      rcases hx c (by simp) with rfl | rfl
      · exact absurd rfl hr
      · exact absurd rfl hn
  obtain ⟨ending, hsplit, hending, hlast⟩ := h
  obtain ⟨ending', hsplit', hending', hlast'⟩ := h'
  rcases List.append_eq_append_iff.1 (hsplit.symm.trans hsplit') with ⟨x, hx, rfl⟩ | ⟨x, hx, rfl⟩
  · exact hextra hx (fun c hc => hending c (List.mem_append_left _ hc)) hlast'
  · exact (hextra hx (fun c hc => hending' c (List.mem_append_left _ hc)) hlast).symm

theorem forall₂_trims (lines : List String) : List.Forall₂ Trims lines (lines.map trimEnd) :=
  List.forall₂_map_right_iff.2 (List.forall₂_same.2 fun line _ => trims_trimEnd line)

/-- Without the line feeds at its end, a line has none. -/
theorem Trims.lineFeeds_eq {line source : String} (h : Trims line source)
    (hline : '\n' ∉ line.toList.dropLast) : lineFeeds source.toList = 0 := by
  obtain ⟨ending, hsplit, -, hlast⟩ := h
  rw [lineFeeds, List.count_eq_zero]
  intro hmem
  have hne := List.ne_nil_of_mem hmem
  rw [← List.dropLast_concat_getLast hne] at hmem
  rcases List.mem_append.1 hmem with hmem | hmem
  · rw [hsplit, List.dropLast_append] at hline
    split at hline
    · exact hline hmem
    · exact hline (List.mem_append_left _ (List.dropLast_subset _ hmem))
  · exact (hlast _ (List.getLast?_eq_some_getLast hne)).2 (List.mem_singleton.1 hmem).symm

/-- What is run for a line of an input is on one line. -/
theorem lineFeeds_eq {input : List UInt8} {good : List (List UInt8)}
    (hfront : good <+: lines input) {texts : List String}
    (hgood : good.map decode? = texts.map some) :
    ∀ source ∈ texts.map trimEnd, lineFeeds source.toList = 0 := by
  intro source hsource
  obtain ⟨text, htext, rfl⟩ := List.mem_map.1 hsource
  have hmem : some text ∈ good.map decode? := by
    rw [hgood]
    exact List.mem_map_of_mem htext
  obtain ⟨line, hline, hdecode⟩ := List.mem_map.1 hmem
  have hlast := (splits_lines input).not_mem_dropLast line (hfront.subset hline)
  exact (trims_trimEnd text).lineFeeds_eq (not_mem_dropLast_of_decode? hlast hdecode)

end Prompt

end TreeWalk

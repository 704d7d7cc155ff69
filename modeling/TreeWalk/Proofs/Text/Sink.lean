import TreeWalk.Semantics.Zoom
import TreeWalk.Text.Sink

/-! Sinks after many texts. What a sink holds depends on the texts alone and not on how they were
cut, and a limited sink holds the part through its last line feed of what an unlimited one holds. -/
namespace TreeWalk

/-- The text is kept whole where `n` line feeds are. -/
def Fits (n : Nat) (text : String) : Prop := throughLineFeed n text.toList = text.toList

instance (n : Nat) (text : String) : Decidable (Fits n text) := inferInstanceAs (Decidable (_ = _))

theorem throughLineFeed_of_lt {n : Nat} {cs : List Char} (h : lineFeeds cs < n) :
    throughLineFeed n cs = cs := by
  fun_induction throughLineFeed n cs with
  | case1 => exact absurd h (Nat.not_lt_zero _)
  | case2 => rfl
  | case3 n cs ih =>
    rw [lineFeeds_cons, if_pos rfl] at h
    rw [ih (Nat.lt_of_succ_lt_succ h)]
  | case4 n c cs hc ih =>
    rw [lineFeeds_cons, if_neg hc] at h
    rw [ih h]

/-- A text that is cut has as many line feeds as are kept. -/
theorem le_lineFeeds_of_not_fits {n : Nat} {text : String} (h : ¬Fits n text) :
    n ≤ lineFeeds text.toList :=
  Nat.le_of_not_lt fun hlt => h (throughLineFeed_of_lt hlt)

theorem fits_append {n : Nat} {text more : String} :
    Fits n (text ++ more) ↔
      Fits n text ∧ Fits (n - lineFeeds text.toList) more := by
  rw [Fits, Fits, Fits, String.toList_append, throughLineFeed_append]
  constructor
  · intro h
    have hlength := congrArg List.length h
    have hle := (throughLineFeed_isPrefix n text.toList).length_le
    have hle' := (throughLineFeed_isPrefix (n - lineFeeds text.toList) more.toList).length_le
    simp only [List.length_append] at hlength
    exact List.append_inj h (by omega)
  · rintro ⟨htext, hmore⟩
    rw [htext, hmore]

namespace Sink

/-- The sink after a text was handed to it, whether it took all of it or not. -/
def after (s : Sink) (text : String) : Sink := stateOf (write text s)

@[simp] theorem after_unlimited (text more : String) :
    (⟨text, none⟩ : Sink).after more = ⟨text ++ more, none⟩ := rfl

theorem after_of_unlimited {s : Sink} (h : s.room = none) (text : String) :
    s.after text = ⟨s.text ++ text, none⟩ := by
  obtain ⟨held, room⟩ := s
  obtain rfl : room = none := h
  rfl

theorem after_room (text more : String) (n : Nat) :
    (⟨text, some n⟩ : Sink).after more =
      ⟨text ++ String.ofList (throughLineFeed n more.toList),
        some (n - lineFeeds (throughLineFeed n more.toList))⟩ := by
  rw [after, write]
  dsimp only
  split <;> rfl

@[simp] theorem after_empty (s : Sink) : s.after "" = s := by
  obtain ⟨text, _ | n⟩ := s
  · rw [after_unlimited, String.append_empty]
  · have hnil : "".toList = [] := rfl
    simp [after_room, hnil]

/-- Two texts are kept as the one that they are together. -/
theorem after_append (s : Sink) (text more : String) :
    s.after (text ++ more) = (s.after text).after more := by
  obtain ⟨kept, _ | n⟩ := s
  · simp only [after_unlimited, String.append_assoc]
  · have hroom : n - min n (lineFeeds text.toList) = n - lineFeeds text.toList := by omega
    simp only [after_room, String.toList_append, throughLineFeed_append,
      lineFeeds_throughLineFeed, hroom, lineFeeds_append, String.ofList_append,
      String.append_assoc, Nat.sub_sub]
    congr 2
    omega

/-- The sink with a text before what it holds. -/
def behind (front : String) (s : Sink) : Sink := { s with text := front ++ s.text }

/-- What a sink holds already is of no account for what it takes. -/
theorem write_behind (front text : String) (s : Sink) :
    write text (s.behind front) = onState (behind front) (write text s) := by
  obtain ⟨held, _ | n⟩ := s
  · simp [behind, String.append_assoc]
  · simp only [behind, write]
    split <;> simp [behind, String.append_assoc]

/-- A sink for `n` line feeds to which a text has been handed. -/
def limited (n : Nat) (text : String) : Sink := (⟨"", some n⟩ : Sink).after text

@[simp] theorem limited_empty (n : Nat) : limited n "" = ⟨"", some n⟩ := after_empty _

theorem limited_append (n : Nat) (text more : String) :
    limited n (text ++ more) = (limited n text).after more := after_append _ _ _

theorem limited_eq (n : Nat) (text : String) :
    limited n text = ⟨String.ofList (throughLineFeed n text.toList),
      some (n - lineFeeds text.toList)⟩ := by
  have hroom : n - min n (lineFeeds text.toList) = n - lineFeeds text.toList := by omega
  rw [limited, after_room, lineFeeds_throughLineFeed, hroom, String.empty_append]

/-- Once a text has been cut, nothing more is kept. -/
theorem limited_append_of_not_fits {n : Nat} {text : String} (h : ¬Fits n text) (more : String) :
    limited n (text ++ more) = limited n text := by
  have hroom : n - lineFeeds text.toList = 0 := Nat.sub_eq_zero_of_le (le_lineFeeds_of_not_fits h)
  rw [limited_append, limited_eq, hroom, after_room, throughLineFeed_zero]
  simp

theorem limited_after {n : Nat} {out : Sink} (hout : out.room = none) (h : ¬Fits n out.text)
    (more : String) :
    ¬Fits n (out.after more).text ∧ limited n (out.after more).text = limited n out.text := by
  rw [after_of_unlimited hout]
  exact ⟨fun hfits => h (fits_append.1 hfits).1, limited_append_of_not_fits h more⟩

/-- A limited sink takes what fits behind the texts before it. Else it keeps a part and fails. -/
theorem write_limited_eq (n : Nat) (text more : String) :
    write more (limited n text) =
      if Fits (n - lineFeeds text.toList) more then .ok () (limited n (text ++ more))
      else .error .full (limited n (text ++ more)) := by
  have hfront := throughLineFeed_isPrefix (n - lineFeeds text.toList) more.toList
  have hlength : (throughLineFeed (n - lineFeeds text.toList) more.toList).length =
      more.toList.length ↔ Fits (n - lineFeeds text.toList) more :=
    ⟨hfront.eq_of_length, congrArg List.length⟩
  rw [limited_append, after, limited_eq]
  simp only [write, hlength]
  split <;> rfl

/-- As long as all texts fit, a limited sink takes them. -/
theorem write_limited {n : Nat} {text more : String} (h : Fits n (text ++ more)) :
    write more (limited n text) = .ok () (limited n (text ++ more)) := by
  rw [write_limited_eq, if_pos (fits_append.1 h).2]

/-- The first text that does not fit is refused, after a part of it has been kept. -/
theorem write_limited_of_not_fits {n : Nat} {text more : String} (ht : Fits n text)
    (h : ¬Fits n (text ++ more)) :
    write more (limited n text) = .error .full (limited n (text ++ more)) := by
  rw [write_limited_eq, if_neg fun hmore => h (fits_append.2 ⟨ht, hmore⟩)]

/-- After that nothing is taken any more. -/
theorem write_limited_of_full {n : Nat} {text more : String} (h : ¬Fits n text)
    (hmore : more ≠ "") : write more (limited n text) = .error .full (limited n text) := by
  have hroom : n - lineFeeds text.toList = 0 := Nat.sub_eq_zero_of_le (le_lineFeeds_of_not_fits h)
  have hnone : ¬Fits 0 more := fun hfits =>
    hmore (String.toList_eq_nil_iff.1 (hfits.symm.trans (throughLineFeed_zero _)))
  rw [write_limited_eq, hroom, if_neg hnone, limited_append_of_not_fits h]

/-- The part of a text that a sink for `n` line feeds keeps. -/
def kept (n : Nat) (text : String) : String := String.ofList (throughLineFeed n text.toList)

theorem text_limited (n : Nat) (text : String) : (limited n text).text = kept n text := by
  rw [limited_eq, kept]

/-- Of a text behind another one all is kept if it fits there. -/
theorem kept_append_eq_iff {n : Nat} {text more : String} :
    kept n (text ++ more) = kept n text ++ more ↔ Fits (n - lineFeeds text.toList) more := by
  rw [kept, kept, String.toList_append, throughLineFeed_append, String.ofList_append,
    String.append_right_inj, Fits, ← String.toList_inj, String.toList_ofList]

end Sink

end TreeWalk

import TreeWalk.Grammar.Tree

/-! Bracketed forms, in which expressions and statements are printed. A form has a head and
arguments in brackets, or is a word; and the text of a form can be read in one way only. -/
namespace TreeWalk

inductive Form
  | word (w : List Char)
  | node (head : List Char) (args : List Form)

namespace Form

mutual

def text : Form → List Char
  | word w => w
  | node head args => '(' :: (head ++ textArgs args)

/-- A space before each argument, and the closing bracket. -/
def textArgs : List Form → List Char
  | [] => [')']
  | f :: fs => ' ' :: (f.text ++ textArgs fs)

end

/-- The characters after which another form, or none, may stand. -/
def stops : List Char := [' ', ')', ';', '\n']

def IsWord (w : List Char) : Prop := ∀ c ∈ w, c ≠ '(' ∧ c ∉ stops

instance (w : List Char) : Decidable (IsWord w) :=
  List.decidableBAll (fun c => c ≠ '(' ∧ c ∉ stops) w

/-- A word does not go on. -/
def Ends (rest : List Char) : Prop := ∀ c ∈ rest.head?, c ∈ stops

inductive IsPlain : Form → Prop
  | word {w : List Char} (hw : IsWord w) : IsPlain (.word w)
  | node {head : List Char} {args : List Form} (hhead : IsWord head)
    (hargs : ∀ f ∈ args, f.IsPlain) : IsPlain (.node head args)

theorem ends_cons {c : Char} (hc : c ∈ stops) (rest : List Char) : Ends (c :: rest) := by
  rintro d ⟨⟩
  exact hc

theorem ends_textArgs (fs : List Form) (rest : List Char) : Ends (textArgs fs ++ rest) := by
  cases fs with
  | nil => exact ends_cons (by decide) rest
  | cons f fs => exact ends_cons (by decide) _

theorem word_append_inj {w w' r r' : List Char} (hw : IsWord w) (hw' : IsWord w') (hr : Ends r)
    (hr' : Ends r') (h : w ++ r = w' ++ r') : w = w' ∧ r = r' := by
  induction w generalizing w' with
  | nil =>
    cases w' with
    | nil => exact ⟨rfl, h⟩
    | cons c w' =>
      obtain rfl : r = c :: (w' ++ r') := h
      exact absurd (hr c rfl) (hw' c (by simp)).2
  | cons c w ih =>
    cases w' with
    | nil =>
      obtain rfl : c :: (w ++ r) = r' := h
      exact absurd (hr' c rfl) (hw c (by simp)).2
    | cons c' w' =>
      obtain ⟨rfl, hrest⟩ := List.cons.inj h
      obtain ⟨rfl, hr⟩ := ih (List.forall_mem_cons.1 hw).2 (List.forall_mem_cons.1 hw').2 hrest
      exact ⟨rfl, hr⟩

/-- No word begins with a bracket. -/
theorem word_append_ne {w r : List Char} (hw : IsWord w) (hr : Ends r) (cs : List Char) :
    w ++ r ≠ '(' :: cs := by
  intro h
  cases w with
  | nil =>
    obtain rfl : r = '(' :: cs := h
    exact absurd (hr '(' rfl) (by decide)
  | cons c w =>
    obtain ⟨rfl, -⟩ := List.cons.inj h
    exact (hw '(' (by simp)).1 rfl

mutual

/-- A text that begins with a form decides the form and what stands after it. -/
theorem text_append_inj {f g : Form} (hf : f.IsPlain) (hg : g.IsPlain) {r r' : List Char}
    (hr : Ends r) (hr' : Ends r') (h : f.text ++ r = g.text ++ r') : f = g ∧ r = r' := by
  cases hf with
  | word hw =>
    cases hg with
    | word hw' =>
      obtain ⟨rfl, hrest⟩ := word_append_inj hw hw' hr hr' h
      exact ⟨rfl, hrest⟩
    | node hhead hargs => exact absurd h (word_append_ne hw hr _)
  | @node head args hhead hargs =>
    cases hg with
    | word hw => exact absurd h.symm (word_append_ne hw hr' _)
    | @node head' args' hhead' hargs' =>
      simp only [text, List.cons_append, List.append_assoc, List.cons.injEq, true_and] at h
      obtain ⟨rfl, hrest⟩ :=
        word_append_inj hhead hhead' (ends_textArgs _ r) (ends_textArgs _ r') h
      obtain ⟨rfl, rfl⟩ := textArgs_append_inj hargs hargs' hrest
      exact ⟨rfl, rfl⟩

theorem textArgs_append_inj {fs gs : List Form} (hfs : ∀ f ∈ fs, f.IsPlain)
    (hgs : ∀ g ∈ gs, g.IsPlain) {r r' : List Char}
    (h : textArgs fs ++ r = textArgs gs ++ r') : fs = gs ∧ r = r' := by
  cases fs with
  | nil =>
    cases gs with
    | nil => exact ⟨rfl, (List.cons.inj h).2⟩
    | cons g gs => exact absurd (List.cons.inj h).1 (by decide)
  | cons f fs =>
    cases gs with
    | nil => exact absurd (List.cons.inj h).1 (by decide)
    | cons g gs =>
      simp only [textArgs, List.cons_append, List.append_assoc, List.cons.injEq, true_and] at h
      obtain ⟨hf, hrests⟩ := List.forall_mem_cons.1 hfs
      obtain ⟨hg, hrests'⟩ := List.forall_mem_cons.1 hgs
      obtain ⟨rfl, hrest⟩ := text_append_inj hf hg (ends_textArgs fs r) (ends_textArgs gs r') h
      obtain ⟨rfl, rfl⟩ := textArgs_append_inj hrests hrests' hrest
      exact ⟨rfl, rfl⟩

end

end Form

end TreeWalk

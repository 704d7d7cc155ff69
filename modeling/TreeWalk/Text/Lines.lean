/-! Line feeds in a text, and the part of a text through its n-th line feed. -/
namespace TreeWalk

def lineFeeds (cs : List Char) : Nat := cs.count '\n'

@[simp] theorem lineFeeds_nil : lineFeeds [] = 0 := rfl

theorem lineFeeds_cons (c : Char) (cs : List Char) :
    lineFeeds (c :: cs) = lineFeeds cs + if c = '\n' then 1 else 0 := by
  simp [lineFeeds, List.count_cons]

@[simp] theorem lineFeeds_append (cs ds : List Char) :
    lineFeeds (cs ++ ds) = lineFeeds cs + lineFeeds ds := List.count_append

/-- The text up to and including its n-th line feed, all of it where it has fewer. -/
def throughLineFeed : (n : Nat) → List Char → List Char
  | 0, _ => []
  | _ + 1, [] => []
  | n + 1, c :: cs =>
    if c = '\n' then c :: throughLineFeed n cs else c :: throughLineFeed (n + 1) cs

@[simp] theorem throughLineFeed_zero (cs : List Char) : throughLineFeed 0 cs = [] := by
  cases cs <;> rfl

@[simp] theorem throughLineFeed_nil (n : Nat) : throughLineFeed n [] = [] := by
  cases n <;> rfl

theorem throughLineFeed_isPrefix (n : Nat) (cs : List Char) : throughLineFeed n cs <+: cs := by
  fun_induction throughLineFeed n cs with
  | case1 => exact List.nil_prefix
  | case2 => exact List.nil_prefix
  | case3 n cs ih => exact List.cons_prefix_cons.2 ⟨rfl, ih⟩
  | case4 n c cs hc ih => exact List.cons_prefix_cons.2 ⟨rfl, ih⟩

theorem lineFeeds_throughLineFeed (n : Nat) (cs : List Char) :
    lineFeeds (throughLineFeed n cs) = min n (lineFeeds cs) := by
  fun_induction throughLineFeed n cs with
  | case1 => simp
  | case2 => simp
  | case3 n cs ih =>
    simp only [lineFeeds_cons, ih, if_pos]
    omega
  | case4 n c cs hc ih =>
    simp only [lineFeeds_cons, hc, ih]
    simp

/-- Keeping the parts of a text keeps the whole, once the line feeds of the first are used up. -/
theorem throughLineFeed_append (n : Nat) (cs ds : List Char) :
    throughLineFeed n (cs ++ ds) =
      throughLineFeed n cs ++ throughLineFeed (n - lineFeeds cs) ds := by
  fun_induction throughLineFeed n cs with
  | case1 => simp
  | case2 => simp
  | case3 n cs ih => simp [throughLineFeed, lineFeeds_cons, ih]
  | case4 n c cs hc ih => simp [throughLineFeed, lineFeeds_cons, hc, ih]

end TreeWalk

import TreeWalk.Text.Visible.Blank
import TreeWalk.Text.Visible.Joining
import TreeWalk.Text.Visible.Unassigned

/-! The characters that a reader can see and tell apart when each stands by itself. -/
namespace TreeWalk

/-- The number lies in one of the runs. -/
def inRuns (runs : List (Nat × Nat)) (n : Nat) : Bool :=
  runs.any fun run => run.1 ≤ n && n ≤ run.2

def isVisible (c : Char) : Bool :=
  !(inRuns Visible.blank c.toNat || inRuns Visible.joining c.toNat ||
    inRuns Visible.unassigned c.toNat)

end TreeWalk

import TreeWalk.Console.Diagnostic

/-! Listeners for diagnostics. -/
namespace TreeWalk

/-- A listener takes reports one at a time, and may fail. -/
class Listener (ρ : Type) where
  hear : Report → EStateM StreamError ρ Unit

/-- A list collects what it hears. -/
instance : Listener (List Report) where
  hear r := fun rs => .ok () (rs ++ [r])

/-- A sink takes the text of each report as a line. -/
instance : Listener Sink where
  hear r := Sink.write (r.text ++ "\n")

namespace Listener

@[simp] theorem hear_list (r : Report) (rs : List Report) : hear r rs = .ok () (rs ++ [r]) := rfl

@[simp] theorem hear_sink (r : Report) (s : Sink) : hear r s = Sink.write (r.text ++ "\n") s := rfl

end Listener

end TreeWalk

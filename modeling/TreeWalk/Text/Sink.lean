import TreeWalk.Text.Lines

/-! Where text is written. A sink may be limited: it then takes text through a given number of line
feeds, and fails when anything is left over. -/
namespace TreeWalk

inductive StreamError.Kind
  | other
  | invalidData
deriving DecidableEq

def StreamError.Kind.name : StreamError.Kind → String
  | other => "Other"
  | invalidData => "InvalidData"

/-- A failure to write or to read. -/
structure StreamError where
  kind : StreamError.Kind
  message : String
deriving DecidableEq

namespace StreamError

def full : StreamError := ⟨.other, "sink full"⟩

def notUtf8 : StreamError := ⟨.invalidData, "stream did not contain valid UTF-8"⟩

end StreamError

/-- What has been written, and how many more line feeds fit where that is limited. -/
structure Sink where
  text : String := ""
  room : Option Nat := none
deriving DecidableEq

namespace Sink

def write (t : String) : EStateM StreamError Sink Unit := fun s =>
  match s.room with
  | none => .ok () ⟨s.text ++ t, none⟩
  | some n =>
    let kept := throughLineFeed n t.toList
    let written : Sink := ⟨s.text ++ String.ofList kept, some (n - lineFeeds kept)⟩
    if kept.length = t.toList.length then .ok () written else .error .full written

@[simp] theorem write_unlimited (t text : String) :
    write t ⟨text, none⟩ = .ok () ⟨text ++ t, none⟩ := rfl

/-- The text written so far, and the sink without it. -/
def drain (s : Sink) : String × Sink := (s.text, { s with text := "" })

end Sink

end TreeWalk

import TreeWalk.Grammar.Statement

/-! Reading whole programs. After a statement that fails, reading resumes at a place where one can
begin, so each fault is reported once. -/
namespace TreeWalk

/-- One outcome of reading a program. -/
inductive Item
  | stmt (s : Stmt)
  | error (e : SyntaxError)
deriving DecidableEq

namespace Item

def ofResult : Except SyntaxError Stmt → Item
  | .ok s => stmt s
  | .error e => error e

def stmt? : Item → Option Stmt
  | stmt s => some s
  | error _ => none

def error? : Item → Option SyntaxError
  | stmt _ => none
  | error e => some e

end Item

namespace Program

/-- Reading ends where the tokens do, or before the first marker of the end. -/
def atEnd : List Token → Bool
  | [] => true
  | t :: _ => t.kind = .endOfFile

def opensDeclaration (t : Token) : Bool :=
  match t.kind with
  | .keyword k => k.opensDeclaration
  | _ => false

/-- Where reading resumes after a token has been dropped: behind it if it is a semicolon, else at
the nearest token that opens a declaration, behind the nearest semicolon, or at the end. -/
def resumeAfter : (dropped : Token) → List Token → List Token
  | _, [] => []
  | dropped, t :: ts =>
    if dropped.kind = .symbol .semicolon ∨ t.kind = .endOfFile ∨ opensDeclaration t then t :: ts
    else resumeAfter t ts

/-- Where reading resumes after a failure: the offending token is dropped, save for the end. -/
def resume : List Token → List Token
  | [] => []
  | t :: ts => if t.kind = .endOfFile then t :: ts else resumeAfter t ts

theorem resumeAfter_suffix (dropped : Token) (ts : List Token) : resumeAfter dropped ts <:+ ts := by
  induction ts generalizing dropped with
  | nil => exact List.suffix_rfl
  | cons t ts ih =>
    rw [resumeAfter]
    split
    · exact List.suffix_rfl
    · exact (ih t).trans (List.suffix_cons t ts)

theorem length_resume_lt {ts : List Token} (h : ¬atEnd ts) : (resume ts).length < ts.length := by
  cases ts with
  | nil => exact absurd rfl h
  | cons t ts =>
    have ht : t.kind ≠ .endOfFile := by simpa [atEnd] using h
    rw [resume, if_neg ht]
    exact Nat.lt_succ_of_le (resumeAfter_suffix t ts).length_le

theorem resume_eq_of_atEnd {ts : List Token} (h : atEnd ts) : resume ts = ts := by
  cases ts with
  | nil => rfl
  | cons t ts => simp_all [resume, atEnd]

/-- What reading a program gives: its items in order, and the tokens that it never takes. -/
structure Outline where
  items : List Item
  rest : List Token
deriving DecidableEq

/-- The items of one statement: its notes, then the statement or the error that ended it. -/
def itemsOf (r : Reading Stmt) : List Item := r.notes.map .error ++ [.ofResult r.result]

/-- The tokens from which the next statement is read. -/
def following (r : Reading Stmt) : List Token :=
  match r.result with
  | .ok _ => r.rest
  | .error _ => resume r.rest

/-- Unless reading is over, a statement and what is skipped after it take up tokens. -/
theorem length_following_lt {r : Reading Stmt} {ts : List Token} (hr : r.Advances ts)
    (h : ¬atEnd (following r)) : (following r).length < ts.length := by
  unfold following at h ⊢
  cases hres : r.result with
  | ok s => exact hr.2 s hres
  | error e =>
    rw [hres] at h
    have hend : ¬atEnd r.rest := fun he => h (by rwa [resume_eq_of_atEnd he])
    exact Nat.lt_of_lt_of_le (length_resume_lt hend) hr.1.length_le

def Outline.after (items : List Item) (o : Outline) : Outline := ⟨items ++ o.items, o.rest⟩

/-- All statements and errors of a token list up to its end. -/
def read (ts : List Token) : Outline :=
  if atEnd ts then ⟨[], ts⟩
  else
    let r := Stmt.read ts
    if _h : atEnd (following r) then ⟨itemsOf r, following r⟩
    else (read (following r)).after (itemsOf r)
termination_by ts.length
decreasing_by exact length_following_lt (Stmt.advances_read ts) _h

theorem read_of_atEnd {ts : List Token} (h : atEnd ts) : read ts = ⟨[], ts⟩ := by
  rw [read, if_pos h]

theorem read_of_not_atEnd {ts : List Token} (h : ¬atEnd ts) :
    read ts = (read (following (Stmt.read ts))).after (itemsOf (Stmt.read ts)) := by
  rw [read, if_neg h]
  simp only
  split
  · rename_i hf
    rw [read_of_atEnd hf]
    simp [Outline.after]
  · rfl

/-- The statements among the items. -/
def statements (items : List Item) : List Stmt := items.filterMap Item.stmt?

def errors (items : List Item) : List SyntaxError := items.filterMap Item.error?

end Program

end TreeWalk

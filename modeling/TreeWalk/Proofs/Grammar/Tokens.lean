import TreeWalk.Proofs.Grammar.Reader
import TreeWalk.Grammar.Recovery

/-! What reading a program needs of its tokens: their kinds. Other tokens of the same kinds are read
as the same items, which hold the other tokens. -/
namespace TreeWalk

def Expr.mapTokens (f : Token → Token) : Expr → Expr
  | assign name value => assign (f name) (value.mapTokens f)
  | binary left op right => binary (left.mapTokens f) (f op) (right.mapTokens f)
  | grouping inner => grouping (inner.mapTokens f)
  | literal value => literal value
  | unary op right => unary (f op) (right.mapTokens f)
  | reference name => reference (f name)

def Stmt.mapTokens (f : Token → Token) : Stmt → Stmt
  | expression e => expression (e.mapTokens f)
  | print e => print (e.mapTokens f)
  | declare name type initial => declare (f name) (f type) (initial.map (Expr.mapTokens f))

def SyntaxError.mapTokens (f : Token → Token) : SyntaxError → SyntaxError
  | atToken t cause => atToken (f t) cause
  | endOfInput => endOfInput

def Item.mapTokens (f : Token → Token) : Item → Item
  | stmt s => stmt (s.mapTokens f)
  | error e => error (e.mapTokens f)

def Program.Outline.mapTokens (f : Token → Token) (o : Outline) : Outline :=
  ⟨o.items.map (Item.mapTokens f), o.rest.map f⟩

variable {f : Token → Token}

namespace Reading

variable {α α' β β' : Type}

/-- The same reading of other tokens, with another result. -/
def map (f : Token → Token) (g : α → β) (r : Reading α) : Reading β where
  notes := r.notes.map (SyntaxError.mapTokens f)
  result :=
    match r.result with
    | .ok a => .ok (g a)
    | .error e => .error (e.mapTokens f)
  rest := r.rest.map f

theorem fail_map (g : α → β) (cause : SyntaxError.Cause) (ts : List Token) :
    fail cause (ts.map f) = (fail cause ts).map f g := by
  cases ts <;> rfl

theorem bind_map {r : Reading α} {k : α → List Token → Reading β} {g : α → α'} {g' : β → β'}
    {k' : α' → List Token → Reading β'}
    (h : ∀ a, r.result = .ok a → k' (g a) (r.rest.map f) = (k a r.rest).map f g') :
    (r.map f g).bind k' = (r.bind k).map f g' := by
  cases hr : r.result with
  | error e => simp only [map, bind, hr]
  | ok a => simp only [map, bind, hr, h a hr, List.map_append]

variable (hf : ∀ t, (f t).kind = t.kind)

include hf in
theorem expect_map (kind : Token.Kind) (cause : SyntaxError.Cause) (ts : List Token) :
    expect kind cause (ts.map f) = (expect kind cause ts).map f f := by
  cases ts with
  | nil => rfl
  | cons t ts =>
    rw [List.map_cons, expect, expect, hf]
    split
    · rfl
    · exact fail_map f cause (t :: ts)

end Reading

variable (hf : ∀ t, (f t).kind = t.kind)

namespace Expr

open Reading

theorem assignTo_map (left : Expr) (equals : Token) (value : Expr) (ts : List Token) :
    assignTo (left.mapTokens f) (f equals) (value.mapTokens f) (ts.map f) =
      (assignTo left equals value ts).map f (mapTokens f) := by
  cases left <;> rfl

include hf

theorem closeGrouping_map (inner : Expr) (ts : List Token) :
    closeGrouping (inner.mapTokens f) (ts.map f) =
      (closeGrouping inner ts).map f (mapTokens f) := by
  rw [closeGrouping, expect_map hf]
  exact bind_map fun _ _ => rfl

theorem readAssigned_map (left : Expr) {ts : List Token}
    (h : ∀ us : List Token, us.length < ts.length →
      read (us.map f) = (read us).map f (mapTokens f)) :
    readAssigned (left.mapTokens f) (ts.map f) = (readAssigned left ts).map f (mapTokens f) := by
  cases ts with
  | nil => rfl
  | cons equals ts =>
    rw [List.map_cons, readAssigned, readAssigned, hf, h ts (Nat.lt_succ_self _)]
    split
    · exact bind_map fun value _ => assignTo_map left equals value _
    · rfl

theorem readOperand_map {ts : List Token}
    (h : ∀ us : List Token, us.length < ts.length →
      read (us.map f) = (read us).map f (mapTokens f) ∧
      readOperand (us.map f) = (readOperand us).map f (mapTokens f)) :
    readOperand (ts.map f) = (readOperand ts).map f (mapTokens f) := by
  cases ts with
  | nil =>
    rw [List.map_nil, readOperand_nil]
    rfl
  | cons t ts =>
    obtain ⟨hread, hoperand⟩ := h ts (Nat.lt_succ_self _)
    rw [List.map_cons, readOperand_cons, readOperand_cons, hf, hread, hoperand]
    split
    · exact bind_map fun _ _ => rfl
    split
    · exact bind_map fun inner _ => closeGrouping_map hf inner _
    split
    · rfl
    split
    · rfl
    · exact fail_map _ _ (t :: ts)

/-- Readers of expressions decide by kinds alone. -/
theorem readers_map (ts : List Token) :
    read (ts.map f) = (read ts).map f (mapTokens f) ∧
    (∀ t, readTier t (ts.map f) = (readTier t ts).map f (mapTokens f)) ∧
    (∀ t left, readChain t (left.mapTokens f) (ts.map f) =
      (readChain t left ts).map f (mapTokens f)) ∧
    readOperand (ts.map f) = (readOperand ts).map f (mapTokens f) := by
  apply readers_induction (A := fun ts => read (ts.map f) = (read ts).map f (mapTokens f))
    (O := fun ts => readOperand (ts.map f) = (readOperand ts).map f (mapTokens f))
    (L := fun t ts => readTier t (ts.map f) = (readTier t ts).map f (mapTokens f))
    (C := fun t left ts => readChain t (left.mapTokens f) (ts.map f) =
      (readChain t left ts).map f (mapTokens f))
  case operand => exact fun ts h => readOperand_map hf h
  case chain =>
    intro t left ts h
    cases ts with
    | nil =>
      rw [List.map_nil, readChain_nil, readChain_nil]
      rfl
    | cons op ts =>
      obtain ⟨hlevel, -⟩ := h ts (Nat.lt_succ_self _)
      rw [List.map_cons, readChain_cons, readChain_cons, hf, hlevel]
      split
      · refine bind_map fun right hres => ?_
        have hlt := (advances_readTier t.operand ts).2 right hres
        exact (h _ (Nat.lt_succ_of_lt hlt)).2 (binary left op right)
      · rfl
  case unary =>
    intro ts h
    rwa [readTier_unary, readTier_unary]
  case tier =>
    intro t ts ht hoperand hchain
    rw [readTier_eq ht, readTier_eq ht, hoperand]
    refine bind_map fun left hres => ?_
    exact hchain left _ ((advances_readTier t.operand ts).2 left hres)
  case assignment =>
    intro ts hlevel hread
    rw [read_eq, read_eq, hlevel]
    refine bind_map fun left hres => readAssigned_map hf left fun us hus => ?_
    exact hread us (Nat.lt_trans hus ((advances_readTier .equality ts).2 left hres))

end Expr

namespace Stmt

open Reading

include hf

theorem readInitial_map (ts : List Token) :
    readInitial (ts.map f) = (readInitial ts).map f (Option.map (Expr.mapTokens f)) := by
  cases ts with
  | nil => rfl
  | cons t ts =>
    rw [List.map_cons, readInitial, readInitial, hf, (Expr.readers_map hf ts).1]
    split
    · exact bind_map fun _ _ => rfl
    · rfl

theorem finish_map (cause : SyntaxError.Cause) (s : Stmt) (ts : List Token) :
    finish cause (s.mapTokens f) (ts.map f) = (finish cause s ts).map f (mapTokens f) := by
  rw [finish, expect_map hf]
  exact bind_map fun _ _ => rfl

theorem readDeclaration_map (ts : List Token) :
    readDeclaration (ts.map f) = (readDeclaration ts).map f (mapTokens f) := by
  rw [readDeclaration, expect_map hf]
  refine bind_map fun name _ => ?_
  rw [expect_map hf]
  refine bind_map fun _ _ => ?_
  rw [expect_map hf]
  refine bind_map fun annotation _ => ?_
  rw [readInitial_map hf]
  exact bind_map fun initial _ => finish_map hf _ (declare name annotation initial) _

theorem readPrint_map (ts : List Token) :
    readPrint (ts.map f) = (readPrint ts).map f (mapTokens f) := by
  rw [readPrint, (Expr.readers_map hf ts).1]
  exact bind_map fun e _ => finish_map hf _ (print e) _

theorem readExpression_map (ts : List Token) :
    readExpression (ts.map f) = (readExpression ts).map f (mapTokens f) := by
  rw [readExpression, (Expr.readers_map hf ts).1]
  exact bind_map fun e _ => finish_map hf _ (expression e) _

theorem read_map (ts : List Token) : read (ts.map f) = (read ts).map f (mapTokens f) := by
  cases ts with
  | nil => exact readExpression_map hf []
  | cons t ts =>
    rw [List.map_cons, read, read, hf]
    split
    · exact readDeclaration_map hf ts
    split
    · exact readPrint_map hf ts
    · exact readExpression_map hf (t :: ts)

end Stmt

namespace Program

/-- Induction over the statements of a program, from its end. -/
theorem read_induction {P : List Token → Prop} (ending : ∀ ts, atEnd ts → P ts)
    (next : ∀ ts, ¬atEnd ts → P (following (Stmt.read ts)) → P ts) (ts : List Token) : P ts := by
  by_cases h : atEnd ts
  · exact ending ts h
  · refine next ts h ?_
    by_cases hfollowing : atEnd (following (Stmt.read ts))
    · exact ending _ hfollowing
    · have hlt := length_following_lt (Stmt.advances_read ts) hfollowing
      exact read_induction ending next _
termination_by ts.length

theorem statements_append (items items' : List Item) :
    statements (items ++ items') = statements items ++ statements items' := List.filterMap_append

theorem errors_append (items items' : List Item) :
    errors (items ++ items') = errors items ++ errors items' := List.filterMap_append

theorem filterMap_mapTokens {α : Type} {pick : Item → Option α} {change : α → α}
    (h : ∀ i, pick (Item.mapTokens f i) = (pick i).map change) (items : List Item) :
    (items.map (Item.mapTokens f)).filterMap pick = (items.filterMap pick).map change := by
  rw [List.filterMap_map, List.map_filterMap]
  exact congrArg (items.filterMap ·) (funext h)

theorem statements_map (items : List Item) :
    statements (items.map (Item.mapTokens f)) = (statements items).map (Stmt.mapTokens f) :=
  filterMap_mapTokens (fun i => by cases i <;> rfl) items

theorem errors_map (items : List Item) :
    errors (items.map (Item.mapTokens f)) = (errors items).map (SyntaxError.mapTokens f) :=
  filterMap_mapTokens (fun i => by cases i <;> rfl) items

theorem itemsOf_map (r : Reading Stmt) :
    itemsOf (r.map f (Stmt.mapTokens f)) = (itemsOf r).map (Item.mapTokens f) := by
  have hnotes : (r.notes.map (SyntaxError.mapTokens f)).map Item.error =
      (r.notes.map Item.error).map (Item.mapTokens f) := by
    rw [List.map_map, List.map_map]
    rfl
  rw [itemsOf, itemsOf, List.map_append, ← hnotes]
  cases hr : r.result <;> simp only [Reading.map, hr] <;> rfl

include hf

theorem atEnd_map (ts : List Token) : atEnd (ts.map f) = atEnd ts := by
  cases ts with
  | nil => rfl
  | cons t ts => rw [List.map_cons, atEnd, atEnd, hf]

theorem opensDeclaration_map (t : Token) : opensDeclaration (f t) = opensDeclaration t := by
  rw [opensDeclaration, opensDeclaration, hf]

theorem resumeAfter_map (dropped : Token) (ts : List Token) :
    resumeAfter (f dropped) (ts.map f) = (resumeAfter dropped ts).map f := by
  induction ts generalizing dropped with
  | nil => rfl
  | cons t ts ih =>
    rw [List.map_cons, resumeAfter, resumeAfter, opensDeclaration_map hf, hf, hf, ih]
    split <;> rfl

theorem resume_map (ts : List Token) : resume (ts.map f) = (resume ts).map f := by
  cases ts with
  | nil => rfl
  | cons t ts =>
    rw [List.map_cons, resume, resume, hf, resumeAfter_map hf]
    split <;> rfl

theorem following_map (r : Reading Stmt) :
    following (r.map f (Stmt.mapTokens f)) = (following r).map f := by
  unfold following
  cases hr : r.result with
  | ok s => simp only [Reading.map, hr]
  | error e => simp only [Reading.map, hr, resume_map hf]

/-- Other tokens of the same kinds are read as the same program. -/
theorem read_map (ts : List Token) : read (ts.map f) = (read ts).mapTokens f := by
  induction ts using read_induction with
  | ending ts h =>
    rw [read_of_atEnd h, read_of_atEnd (by rwa [atEnd_map hf])]
    rfl
  | next ts h ih =>
    rw [read_of_not_atEnd h, read_of_not_atEnd (by rwa [atEnd_map hf]), Stmt.read_map hf,
      following_map hf, ih, itemsOf_map]
    simp only [Outline.after, Outline.mapTokens, List.map_append]

end Program

/-- The token at the place that another one stands for, as its line says, if that token is of its
kind. -/
def Token.placed (ts : List Token) (t : Token) : Token :=
  match ts[t.line]? with
  | some u => if u.kind = t.kind then u else t
  | none => t

theorem Token.kind_placed (ts : List Token) (t : Token) : (t.placed ts).kind = t.kind := by
  unfold placed
  split
  · split
    · assumption
    · rfl
  · rfl

namespace Program

/-- The program that token kinds alone give. Its tokens stand for their places. -/
def template (kinds : List Token.Kind) : Outline :=
  read (kinds.mapIdx fun place kind => ⟨kind, "", place⟩)

theorem map_placed (ts : List Token) :
    ((ts.map Token.kind).mapIdx fun place kind => (⟨kind, "", place⟩ : Token)).map
      (Token.placed ts) = ts := by
  apply List.ext_getElem
  · simp
  · intro n h h'
    simp [Token.placed, h']

/-- A program is the template of its kinds, filled in. -/
theorem read_eq_template (ts : List Token) :
    read ts = (template (ts.map Token.kind)).mapTokens (Token.placed ts) := by
  unfold template
  rw [← read_map (Token.kind_placed ts), map_placed]

theorem message_mapTokens (e : SyntaxError) : (e.mapTokens f).message = e.message := by
  cases e <;> rfl

/-- Kinds alone decide how tokens are read. Whatever else of them is changed, the items are the same
statements and errors in the same order, of the changed tokens and with the same messages. So a
program is a template that its kinds give, with each token put in at its place. -/
theorem kinds_decide (hf : ∀ t, (f t).kind = t.kind) (ts : List Token) :
    (read (ts.map f)).items = (read ts).items.map (Item.mapTokens f) ∧
    (errors (read (ts.map f)).items).map SyntaxError.message =
      (errors (read ts).items).map SyntaxError.message ∧
    read ts = (template (ts.map Token.kind)).mapTokens (Token.placed ts) := by
  have hitems : (read (ts.map f)).items = (read ts).items.map (Item.mapTokens f) := by
    rw [read_map hf]
    rfl
  refine ⟨hitems, ?_, read_eq_template ts⟩
  rw [hitems, errors_map, List.map_map]
  exact List.map_congr_left fun e _ => message_mapTokens e

/-- The items of `y = true; print ;` with each token written as `?` on line 7. -/
theorem kinds_decide_assignment :
    ∃ (f : Token → Token) (ts : List Token), (∀ t, (f t).kind = t.kind) ∧
      ts = [⟨.identifier, "y", 1⟩, ⟨.symbol .equal, "=", 1⟩, ⟨.keyword .trueKw, "true", 1⟩,
        ⟨.symbol .semicolon, ";", 1⟩, ⟨.keyword .printKw, "print", 2⟩, ⟨.symbol .semicolon, ";", 2⟩] ∧
      (read (ts.map f)).items =
        [.stmt (.expression (.assign ⟨.identifier, "?", 7⟩ (.literal (.boolean true)))),
          .error (.atToken ⟨.symbol .semicolon, "?", 7⟩ .missingExpression)] := by
  let f : Token → Token := fun t => ⟨t.kind, "?", 7⟩
  let ts : List Token := [⟨.identifier, "y", 1⟩, ⟨.symbol .equal, "=", 1⟩,
    ⟨.keyword .trueKw, "true", 1⟩, ⟨.symbol .semicolon, ";", 1⟩, ⟨.keyword .printKw, "print", 2⟩,
    ⟨.symbol .semicolon, ";", 2⟩]
  have hf (t : Token) : (f t).kind = t.kind := rfl
  have hread : (read ts).items =
      [.stmt (.expression (.assign ⟨.identifier, "y", 1⟩ (.literal (.boolean true)))),
        .error (.atToken ⟨.symbol .semicolon, ";", 2⟩ .missingExpression)] := by decide +kernel
  obtain ⟨hitems, -, -⟩ := kinds_decide hf ts
  rw [hread] at hitems
  exact ⟨f, ts, hf, rfl, hitems⟩

end Program

end TreeWalk

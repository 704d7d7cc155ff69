import TreeWalk.Proofs.Grammar.Layering
import TreeWalk.Semantics.Execution

/-! Brackets around a subexpression. Put around its tokens they are read as a grouping of it, and
everything else is read as it was. A grouping has the value of what it groups, so the program still
does the same. -/
namespace TreeWalk

open Grammar

namespace Expr

/-- A place for an expression inside another one. The target of an assignment is no such place. -/
inductive Context
  | hole
  | assign (name : Token) (value : Context)
  | left (operand : Context) (op : Token) (right : Expr)
  | right (left : Expr) (op : Token) (operand : Context)
  | grouping (inner : Context)
  | unary (op : Token) (operand : Context)

namespace Context

def fill : Context → Expr → Expr
  | hole, e => e
  | assign name value, e => .assign name (value.fill e)
  | left operand op r, e => .binary (operand.fill e) op r
  | right l op operand, e => .binary l op (operand.fill e)
  | grouping inner, e => .grouping (inner.fill e)
  | unary op operand, e => .unary op (operand.fill e)

/-- The tokens on both sides of the place. -/
inductive Surrounds : Context → List Token → List Token → Prop
  | hole : Surrounds hole [] []
  | assign (name : Token) (equals : Terminal (.symbol .equal)) {value : Context}
      {front back : List Token} (hv : value.Surrounds front back) :
      Surrounds (assign name value) (name :: equals.val :: front) back
  | left {operand : Context} {front back : List Token} (ho : operand.Surrounds front back)
      (op : Token) {right : Expr} {rs : List Token} (hr : right.SpelledBy rs) :
      Surrounds (left operand op right) front (back ++ op :: rs)
  | right {left : Expr} {ls : List Token} (hl : left.SpelledBy ls) (op : Token)
      {operand : Context} {front back : List Token} (ho : operand.Surrounds front back) :
      Surrounds (right left op operand) (ls ++ op :: front) back
  | grouping (opening : Terminal (.symbol .leftParen)) {inner : Context} {front back : List Token}
      (hi : inner.Surrounds front back) (closing : Terminal (.symbol .rightParen)) :
      Surrounds (grouping inner) (opening.val :: front) (back ++ [closing.val])
  | unary (op : Token) {operand : Context} {front back : List Token}
      (ho : operand.Surrounds front back) : Surrounds (unary op operand) (op :: front) back

/-- The tokens of an expression stand between those that surround its place. -/
theorem Surrounds.spelledBy {c : Context} {front back : List Token} (h : c.Surrounds front back)
    {e : Expr} {ts : List Token} (he : e.SpelledBy ts) :
    (c.fill e).SpelledBy (front ++ ts ++ back) := by
  induction h with
  | hole => simpa [fill] using he
  | assign name equals hv ih => exact .assign name equals ih
  | left ho op hr ih =>
    rw [← List.append_assoc]
    exact .binary op ih hr
  | @right left ls hl op operand front back ho ih =>
    have hspelled := SpelledBy.binary op hl ih
    simpa [fill] using hspelled
  | grouping opening hi closing ih =>
    have hspelled := SpelledBy.grouping opening ih closing
    simpa [fill] using hspelled
  | unary op ho ih => exact .unary op ih

theorem exists_surrounds {c : Context} {e : Expr} {ts : List Token}
    (h : (c.fill e).SpelledBy ts) : ∃ front range back,
      c.Surrounds front back ∧ e.SpelledBy range ∧ ts = front ++ range ++ back := by
  induction c generalizing ts with
  | hole => exact ⟨[], ts, [], .hole, h, by simp⟩
  | assign name value ih =>
    cases h with
    | assign _ equals hv =>
      obtain ⟨front, range, back, hc, he, rfl⟩ := ih hv
      exact ⟨name :: equals.val :: front, range, back, .assign name equals hc, he, rfl⟩
  | left operand op r ih =>
    cases h with
    | @binary _ _ _ ls rs hl hr =>
      obtain ⟨front, range, back, hc, he, rfl⟩ := ih hl
      exact ⟨front, range, back ++ op :: rs, .left hc op hr, he, by simp⟩
  | right l op operand ih =>
    cases h with
    | @binary _ _ _ ls rs hl hr =>
      obtain ⟨front, range, back, hc, he, rfl⟩ := ih hr
      exact ⟨ls ++ op :: front, range, back, .right hl op hc, he, by simp⟩
  | grouping inner ih =>
    cases h with
    | grouping opening hi closing =>
      obtain ⟨front, range, back, hc, he, rfl⟩ := ih hi
      exact ⟨opening.val :: front, range, back ++ [closing.val], .grouping opening hc closing, he,
        by simp⟩
  | unary op operand ih =>
    cases h with
    | unary _ hr =>
      obtain ⟨front, range, back, hc, he, rfl⟩ := ih hr
      exact ⟨op :: front, range, back, .unary op hc, he, rfl⟩

theorem Surrounds.length_eq {c : Context} {front back front' back' : List Token}
    (h : c.Surrounds front back) (h' : c.Surrounds front' back') :
    front.length = front'.length := by
  induction h generalizing front' back' with
  | hole => cases h'; rfl
  | assign name equals hv ih =>
    cases h' with
    | assign _ equals' hv' => simp [ih hv']
  | left ho op hr ih =>
    cases h' with
    | left ho' _ hr' => exact ih ho'
  | right hl op ho ih =>
    cases h' with
    | right hl' _ ho' => simp [hl.length_eq hl', ih ho']
  | grouping opening hi closing ih =>
    cases h' with
    | grouping opening' hi' closing' => simp [ih hi']
  | unary op ho ih =>
    cases h' with
    | unary _ ho' => simp [ih ho']

/-- A grouping fits wherever an expression does. -/
theorem fitsIn_fill_grouping (c : Context) {e : Expr} {t : Tier} (h : (c.fill e).FitsIn t) :
    (c.fill (.grouping e)).FitsIn t := by
  cases c with
  | hole => trivial
  | _ => exact h

theorem isLayered_fill_grouping (c : Context) {e : Expr} (h : (c.fill e).IsLayered) :
    (c.fill (.grouping e)).IsLayered := by
  induction c with
  | hole => exact h
  | assign name value ih => exact ⟨h.1, ih h.2⟩
  | left operand op r ih =>
    obtain ⟨⟨t, ht, hl, hr⟩, hlayered, hright⟩ := h
    exact ⟨⟨t, ht, fitsIn_fill_grouping operand hl, hr⟩, ih hlayered, hright⟩
  | right l op operand ih =>
    obtain ⟨⟨t, ht, hl, hr⟩, hleft, hlayered⟩ := h
    exact ⟨⟨t, ht, hl, fitsIn_fill_grouping operand hr⟩, hleft, ih hlayered⟩
  | grouping inner ih => exact ih h
  | unary op operand ih => exact ⟨h.1, fitsIn_fill_grouping operand h.2.1, ih h.2.2⟩

/-- Only the value of the expression counts at its place, and its faults. -/
theorem eval_fill {e e' : Expr} (h : e.eval = e'.eval) (c : Context) :
    (c.fill e).eval = (c.fill e').eval := by
  induction c with
  | hole => exact h
  | _ => simp only [fill, eval, *]

end Context

end Expr

namespace Stmt

/-- A place for an expression inside a statement. -/
inductive Context
  | expression (inner : Expr.Context)
  | print (inner : Expr.Context)
  | declare (name type : Token) (initial : Expr.Context)

namespace Context

def fill : Context → Expr → Stmt
  | expression inner, e => .expression (inner.fill e)
  | print inner, e => .print (inner.fill e)
  | declare name type initial, e => .declare name type (some (initial.fill e))

inductive Surrounds : Context → List Token → List Token → Prop
  | expression {inner : Expr.Context} {front back : List Token} (hi : inner.Surrounds front back)
      (closing : Terminal (.symbol .semicolon)) :
      Surrounds (expression inner) front (back ++ [closing.val])
  | print (opening : Terminal (.keyword .printKw)) {inner : Expr.Context}
      {front back : List Token} (hi : inner.Surrounds front back)
      (closing : Terminal (.symbol .semicolon)) :
      Surrounds (print inner) (opening.val :: front) (back ++ [closing.val])
  | declare (opening : Terminal (.keyword .varKw)) (name : Token)
      (colons : Terminal (.symbol .doubleColon)) (type : Token)
      (equals : Terminal (.symbol .equal)) {initial : Expr.Context} {front back : List Token}
      (hi : initial.Surrounds front back) (closing : Terminal (.symbol .semicolon)) :
      Surrounds (declare name type initial)
        (opening.val :: name :: colons.val :: type :: equals.val :: front) (back ++ [closing.val])

theorem Surrounds.spelledBy {c : Context} {front back : List Token} (h : c.Surrounds front back)
    {e : Expr} {ts : List Token} (he : e.SpelledBy ts) :
    (c.fill e).SpelledBy (front ++ ts ++ back) := by
  cases h with
  | expression hi closing =>
    rw [← List.append_assoc]
    exact .expression (hi.spelledBy he) closing
  | print opening hi closing =>
    rw [← List.append_assoc]
    exact .print opening (hi.spelledBy he) closing
  | declare opening name colons type equals hi closing =>
    rw [← List.append_assoc]
    exact .declare opening name colons type equals (hi.spelledBy he) closing

theorem exists_surrounds {c : Context} {e : Expr} {ts : List Token}
    (h : (c.fill e).SpelledBy ts) : ∃ front range back,
      c.Surrounds front back ∧ e.SpelledBy range ∧ ts = front ++ range ++ back := by
  cases c with
  | expression inner =>
    cases h with
    | expression hs closing =>
      obtain ⟨front, range, back, hc, he, rfl⟩ := Expr.Context.exists_surrounds hs
      exact ⟨front, range, back ++ [closing.val], .expression hc closing, he, by simp⟩
  | print inner =>
    cases h with
    | print opening hs closing =>
      obtain ⟨front, range, back, hc, he, rfl⟩ := Expr.Context.exists_surrounds hs
      exact ⟨opening.val :: front, range, back ++ [closing.val], .print opening hc closing, he,
        by simp⟩
  | declare name type initial =>
    cases h with
    | declare opening _ colons _ equals hs closing =>
      obtain ⟨front, range, back, hc, he, rfl⟩ := Expr.Context.exists_surrounds hs
      exact ⟨opening.val :: name :: colons.val :: type :: equals.val :: front, range,
        back ++ [closing.val], .declare opening name colons type equals hc closing, he, by simp⟩

theorem Surrounds.length_eq {c : Context} {front back front' back' : List Token}
    (h : c.Surrounds front back) (h' : c.Surrounds front' back') :
    front.length = front'.length := by
  cases h with
  | expression hi closing =>
    cases h' with
    | expression hi' closing' => exact hi.length_eq hi'
  | print opening hi closing =>
    cases h' with
    | print opening' hi' closing' => simp [hi.length_eq hi']
  | declare opening name colons type equals hi closing =>
    cases h' with
    | declare _ _ _ _ _ hi' _ => simp [hi.length_eq hi']

theorem isLayered_fill_grouping (c : Context) {e : Expr} (h : (c.fill e).IsLayered) :
    (c.fill (.grouping e)).IsLayered := by
  cases c with
  | expression inner | print inner => exact inner.isLayered_fill_grouping h
  | declare name type initial =>
    refine ⟨h.1, h.2.1, ?_⟩
    rintro _ ⟨⟩
    exact initial.isLayered_fill_grouping (h.2.2 _ rfl)

theorem exec_fill {e e' : Expr} (h : e.eval = e'.eval) (c : Context) :
    (c.fill e).exec = (c.fill e').exec := by
  cases c with
  | expression inner | print inner => simp only [fill, exec, Machine.evaluate, inner.eval_fill h]
  | declare name type initial => simp only [fill, exec, Machine.evaluate, initial.eval_fill h]

end Context

end Stmt

namespace Program

/-- A place for an expression in a program. -/
structure Place where
  before : List Stmt
  statement : Stmt.Context
  after : List Stmt

namespace Place

def fill (p : Place) (e : Expr) : List Stmt := p.before ++ p.statement.fill e :: p.after

/-- The tokens on both sides of the place, to the end and beyond. -/
inductive Surrounds (p : Place) : List Token → List Token → Prop
  | intro {us front back vs rest : List Token} (hbefore : SpelledBy p.before us)
      (hstatement : p.statement.Surrounds front back) (hafter : SpelledBy p.after vs)
      (hrest : atEnd rest) : p.Surrounds (us ++ front) (back ++ (vs ++ rest))

theorem Surrounds.length_eq {p : Place} {front back front' back' : List Token}
    (h : p.Surrounds front back) (h' : p.Surrounds front' back') :
    front.length = front'.length := by
  cases h with
  | intro hbefore hstatement =>
    cases h' with
    | intro hbefore' hstatement' =>
      rw [List.length_append, List.length_append, hbefore.length_eq hbefore',
        hstatement.length_eq hstatement']

/-- Programs are read without errors from their layered spellings, with those of a subexpression
between the tokens around its place. -/
theorem items_fill_iff {p : Place} {e : Expr} {ts : List Token} :
    (read ts).items = (p.fill e).map .stmt ↔ (∀ s ∈ p.fill e, s.IsLayered) ∧
      ∃ front range back,
        p.Surrounds front back ∧ e.SpelledBy range ∧ ts = front ++ range ++ back := by
  rw [items_eq_iff, and_congr_right_iff]
  intro _
  constructor
  · rintro ⟨_, rest, hspelled, hrest, rfl⟩
    obtain ⟨us, _, hus, hvs, rfl⟩ := spelledBy_append_iff.1 hspelled
    cases hvs with
    | @cons _ _ _ vs hs hp =>
      obtain ⟨front, range, back, hc, he, rfl⟩ := Stmt.Context.exists_surrounds hs
      exact ⟨us ++ front, range, back ++ (vs ++ rest), .intro hus hc hp hrest, he, by simp⟩
  · rintro ⟨_, range, _, ⟨hus, hc, hp, hrest⟩, he, rfl⟩
    rename_i us front back vs rest
    refine ⟨us ++ ((front ++ range ++ back) ++ vs), rest, ?_, hrest, by simp⟩
    exact spelledBy_append_iff.2 ⟨_, _, hus, .cons (hc.spelledBy he) hp, rfl⟩

theorem isLayered_fill_grouping {p : Place} {e : Expr} (h : ∀ s ∈ p.fill e, s.IsLayered) :
    ∀ s ∈ p.fill (.grouping e), s.IsLayered := by
  obtain ⟨hbefore, hrest⟩ := List.forall_mem_append.1 h
  obtain ⟨hstatement, hafter⟩ := List.forall_mem_cons.1 hrest
  exact List.forall_mem_append.2 ⟨hbefore,
    List.forall_mem_cons.2 ⟨p.statement.isLayered_fill_grouping hstatement, hafter⟩⟩

theorem run_fill {e e' : Expr} (h : e.eval = e'.eval) (p : Place) (m : Machine) :
    Machine.run (p.fill e) m = Machine.run (p.fill e') m := by
  simp only [fill, Machine.run_append, Machine.run_cons, p.statement.exec_fill h]

/-- The tokens of a subexpression are one range of the tokens of the program. With brackets around
this range the program is read as before, but for a grouping around the subexpression, and it does
what it did before from any state. -/
theorem read_bracketed (p : Place) (e : Expr) {ts : List Token}
    (h : (read ts).items = (p.fill e).map .stmt) :
    ∃ front range back : List Token,
      (ts = front ++ range ++ back ∧ p.Surrounds front back ∧ e.SpelledBy range) ∧
      (∀ front' range' back', ts = front' ++ range' ++ back' → p.Surrounds front' back' →
        e.SpelledBy range' → front' = front ∧ range' = range ∧ back' = back) ∧
      (∀ (opening : Terminal (.symbol .leftParen)) (closing : Terminal (.symbol .rightParen)),
        (read (front ++ (opening.val :: (range ++ [closing.val])) ++ back)).items =
          (p.fill (.grouping e)).map .stmt) ∧
      ∀ m, Machine.run (p.fill (.grouping e)) m = Machine.run (p.fill e) m := by
  obtain ⟨hlayered, front, range, back, hp, he, rfl⟩ := items_fill_iff.1 h
  refine ⟨front, range, back, ⟨rfl, hp, he⟩, ?_, ?_, run_fill e.eval_grouping p⟩
  · intro front' range' back' hts hp' he'
    obtain ⟨hinner, hback⟩ := List.append_inj hts (by
      rw [List.length_append, List.length_append, hp.length_eq hp', he.length_eq he'])
    obtain ⟨hfront, hrange⟩ := List.append_inj hinner (hp.length_eq hp')
    exact ⟨hfront.symm, hrange.symm, hback.symm⟩
  · intro opening closing
    exact items_fill_iff.2 ⟨isLayered_fill_grouping hlayered, front, _, back, hp,
      .grouping opening he closing, rfl⟩

/-- Brackets around the first difference in `print x - y - z;` leave the second one outside. -/
theorem read_bracketed_difference :
    let x : Token := ⟨.identifier, "x", 1⟩
    let y : Token := ⟨.identifier, "y", 1⟩
    let z : Token := ⟨.identifier, "z", 1⟩
    let minus : Token := ⟨.symbol .minus, "-", 1⟩
    let front : List Token := [⟨.keyword .printKw, "print", 1⟩]
    let back : List Token := [minus, z, ⟨.symbol .semicolon, ";", 1⟩, ⟨.endOfFile, "", 1⟩]
    let difference : Expr := .binary (.reference x) minus (.reference y)
    (read (front ++ [x, minus, y] ++ back)).items =
        [.stmt (.print (.binary difference minus (.reference z)))] ∧
      (read (front ++ (⟨.symbol .leftParen, "(", 1⟩ ::
          ([x, minus, y] ++ [⟨.symbol .rightParen, ")", 1⟩])) ++ back)).items =
        [.stmt (.print (.binary (.grouping difference) minus (.reference z)))] ∧
      ∀ m, Machine.run [.print (.binary (.grouping difference) minus (.reference z))] m =
        Machine.run [.print (.binary difference minus (.reference z))] m := by
  intro x y z minus front back difference
  let place : Place := ⟨[], .print (.left .hole minus (.reference z)), []⟩
  have hread : (read (front ++ [x, minus, y] ++ back)).items =
      (place.fill difference).map .stmt := by decide +kernel
  obtain ⟨_, _, _, -, hunique, hbracketed, hrun⟩ := read_bracketed place difference hread
  have hstatement := Stmt.Context.Surrounds.print ⟨⟨.keyword .printKw, "print", 1⟩, rfl⟩
    (.left .hole minus (.reference z)) ⟨⟨.symbol .semicolon, ";", 1⟩, rfl⟩
  have hplace := Surrounds.intro (p := place) .nil hstatement .nil
    (rfl : atEnd [⟨.endOfFile, "", 1⟩])
  obtain ⟨rfl, rfl, rfl⟩ := hunique front [x, minus, y] back rfl hplace
    (.binary minus (.reference x) (.reference y))
  exact ⟨hread, hbracketed ⟨_, rfl⟩ ⟨_, rfl⟩, hrun⟩

end Place

end Program

end TreeWalk

import Mathlib.Data.List.Induction
import TreeWalk.Proofs.Semantics.Stops

/-! Which names are bound. Evaluating binds no name and unbinds none, and it ends only after it has
met every name in the expression. So the order of declarations alone decides whether a name is
undefined, and the names that are bound are those declared by the statements that are done. -/
namespace TreeWalk

/-- The names that are read or assigned to. -/
def Expr.names : Expr → List String
  | assign name value => name.lexeme :: value.names
  | binary left _ right => left.names ++ right.names
  | grouping inner => inner.names
  | literal _ => []
  | unary _ right => right.names
  | reference name => [name.lexeme]

namespace Stmt

def names : Stmt → List String
  | expression e | print e => e.names
  | declare _ _ none => []
  | declare _ _ (some e) => e.names

/-- The name of a declaration. -/
def declared : Stmt → List String
  | expression _ | print _ => []
  | declare name _ _ => [name.lexeme]

end Stmt

def declaredBy (program : List Stmt) : List String := program.flatMap Stmt.declared

/-- Every name that a statement reads or assigns to is declared by a statement before it. -/
def DeclaredBeforeUse (program : List Stmt) : Prop :=
  ∀ before s after, program = before ++ s :: after → ∀ x ∈ s.names, x ∈ declaredBy before

@[simp] theorem declaredBy_concat (program : List Stmt) (s : Stmt) :
    declaredBy (program ++ [s]) = declaredBy program ++ s.declared := by
  simp [declaredBy]

theorem declaredBeforeUse_nil : DeclaredBeforeUse [] := by
  intro before s after h
  simp at h

theorem declaredBeforeUse_concat {program : List Stmt} {s : Stmt} :
    DeclaredBeforeUse (program ++ [s]) ↔
      DeclaredBeforeUse program ∧ ∀ x ∈ s.names, x ∈ declaredBy program := by
  constructor
  · intro h
    refine ⟨fun before t after hsplit => ?_, h program s [] rfl⟩
    exact h before t (after ++ [s]) (by rw [hsplit, List.append_assoc, List.cons_append])
  · rintro ⟨hprogram, hs⟩ before t after hsplit
    rcases List.eq_nil_or_concat after with rfl | ⟨after, last, rfl⟩
    · obtain ⟨rfl, heq⟩ := List.append_inj' hsplit rfl
      obtain rfl : s = t := by simpa using heq
      exact hs
    · rw [List.concat_eq_append, ← List.cons_append, ← List.append_assoc] at hsplit
      exact hprogram before t after (List.append_inj' hsplit rfl).1

namespace Bindings

/-- The names that are bound are the given ones. -/
def Binds (b : Bindings) (names : List String) : Prop :=
  ∀ x, (b.get? x).isSome ↔ x ∈ names

theorem binds_empty : ({} : Bindings).Binds [] := by simp [Binds]

variable {b : Bindings} {names : List String}

theorem Binds.define (h : b.Binds names) (x : String) (v : Value) :
    (b.define x v).Binds (names ++ [x]) := by
  intro y
  rw [get?_define, List.mem_append, List.mem_singleton, ← h y]
  by_cases hxy : x = y
  · simp [hxy]
  · simp [hxy, Ne.symm hxy]

theorem Binds.define_of_mem (h : b.Binds names) {x : String} (hx : x ∈ names) (v : Value) :
    (b.define x v).Binds names := by
  intro y
  rw [get?_define, ← h y]
  by_cases hxy : x = y
  · subst hxy
    simp [(h x).2 hx]
  · simp [hxy]

theorem Binds.exists_of_mem (h : b.Binds names) {x : String} (hx : x ∈ names) :
    ∃ v, b.get? x = some v := Option.isSome_iff_exists.1 ((h x).2 hx)

theorem Binds.eq_none_of_not_mem (h : b.Binds names) {x : String} (hx : x ∉ names) :
    b.get? x = none := by
  rw [← Option.not_isSome_iff_eq_none, h x]
  exact hx

end Bindings

/-- What evaluating comes to where the given names are bound. It has a value only if they are all
that it needs, and a variable is undefined only if it is none of them. -/
inductive Expr.Resolves (names : List String) (e : Expr) (b : Bindings) : Prop
  | value (v : Value) (b' : Bindings) (he : e.eval b = .ok v b') (hb : b'.Binds names)
    (hnames : ∀ x ∈ e.names, x ∈ names)
  | fault (f : Fault) (b' : Bindings) (he : e.eval b = .error f b') (hb : b'.Binds names)
    (hcause : ∀ t, f = .runtime ⟨t, .undefinedVariable⟩ →
      t.lexeme ∈ e.names ∧ t.lexeme ∉ names)

namespace Expr

variable {names : List String} {b : Bindings}

theorem resolves_of_ofResult {e : Expr} {r : Except Fault Value}
    (he : e.eval b = Evaluation.ofResult r b') (hb : b'.Binds names)
    (hnames : ∀ x ∈ e.names, x ∈ names)
    (hr : ∀ t, r ≠ .error (.runtime ⟨t, .undefinedVariable⟩)) : e.Resolves names b := by
  cases r with
  | ok v => exact .value v b' he hb hnames
  | error f => exact .fault f b' he hb fun t ht => absurd (congrArg Except.error ht) (hr t)

theorem resolves (e : Expr) (h : b.Binds names) : e.Resolves names b := by
  induction e generalizing b with
  | assign name value ih =>
    cases ih h with
    | value v b' he hb hnames =>
      by_cases hname : name.lexeme ∈ names
      · obtain ⟨u, hu⟩ := hb.exists_of_mem hname
        refine .value v (b'.define name.lexeme v) ?_ (hb.define_of_mem hname v)
          (List.forall_mem_cons.2 ⟨hname, hnames⟩)
        rw [eval_assign, he]
        simp only [Evaluation.assign, Bindings.assign_of_get? hu]
      · refine .fault (.runtime ⟨name, .undefinedVariable⟩) b' ?_ hb ?_
        · rw [eval_assign, he]
          simp only [Evaluation.assign,
            Bindings.assign_of_get?_none (hb.eq_none_of_not_mem hname)]
        · rintro t ⟨⟩
          exact ⟨List.mem_cons_self, hname⟩
    | fault f b' he hb hcause =>
      refine .fault f b' (by rw [eval_assign, he]) hb fun t ht => ?_
      exact ⟨List.mem_cons_of_mem _ (hcause t ht).1, (hcause t ht).2⟩
  | binary left op right ihl ihr =>
    cases ihl h with
    | value u b₁ hl hb₁ hleft =>
      cases ihr hb₁ with
      | value v b₂ hr hb₂ hright =>
        refine resolves_of_ofResult (r := Operator.binary op u v) ?_ hb₂
          (List.forall_mem_append.2 ⟨hleft, hright⟩) fun t hop =>
            (Operator.raises_of_binary hop).ne_undefined t rfl
        rw [eval_binary, hl]
        simp only [hr]
      | fault f b₂ hr hb₂ hcause =>
        refine .fault f b₂ ?_ hb₂ fun t ht => ?_
        · rw [eval_binary, hl]
          simp only [hr]
        · exact ⟨List.mem_append_right _ (hcause t ht).1, (hcause t ht).2⟩
    | fault f b₁ hl hb₁ hcause =>
      refine .fault f b₁ (by rw [eval_binary, hl]) hb₁ fun t ht => ?_
      exact ⟨List.mem_append_left _ (hcause t ht).1, (hcause t ht).2⟩
  | grouping inner ih =>
    cases ih h with
    | value v b' he hb hnames => exact .value v b' he hb hnames
    | fault f b' he hb hcause => exact .fault f b' he hb hcause
  | literal v => exact .value v b rfl h (by simp [Expr.names])
  | unary op right ih =>
    cases ih h with
    | value v b' he hb hnames =>
      refine resolves_of_ofResult (r := Operator.unary op v) ?_ hb hnames fun t hop =>
        (Operator.raises_of_unary hop).ne_undefined t rfl
      rw [eval_unary, he]
    | fault f b' he hb hcause => exact .fault f b' (by rw [eval_unary, he]) hb hcause
  | reference name =>
    by_cases hname : name.lexeme ∈ names
    · obtain ⟨v, hv⟩ := h.exists_of_mem hname
      refine .value v b ?_ h (List.forall_mem_singleton.2 hname)
      simp only [eval_reference, Evaluation.read, Bindings.read_of_get? hv]
    · refine .fault (.runtime ⟨name, .undefinedVariable⟩) b ?_ h ?_
      · simp only [eval_reference, Evaluation.read,
          Bindings.read_of_get?_none (h.eq_none_of_not_mem hname)]
      · rintro t ⟨⟩
        exact ⟨List.mem_singleton_self _, hname⟩

end Expr

/-- What a statement comes to where the given names are bound. If it is done, its own name is bound
as well. -/
inductive Stmt.Resolves (names : List String) (s : Stmt) (m : Machine) : Prop
  | done (m' : Machine) (hs : s.exec m = .ok () m')
    (hb : m'.bindings.Binds (names ++ s.declared)) (hnames : ∀ x ∈ s.names, x ∈ names)
  | halt (h : Halt) (m' : Machine) (hs : s.exec m = .error h m') (hb : m'.bindings.Binds names)
    (hcause : ∀ t, h = .fault (.runtime ⟨t, .undefinedVariable⟩) →
      t.lexeme ∈ s.names ∧ t.lexeme ∉ names)

theorem Stmt.resolves (s : Stmt) {names : List String} {m : Machine}
    (h : m.bindings.Binds names) : s.Resolves names m := by
  cases s with
  | expression e =>
    cases e.resolves h with
    | value v b' he hb hnames =>
      exact .done { m with bindings := b' } (by rw [exec_expression, he])
        (by rwa [declared, List.append_nil]) hnames
    | fault f b' he hb hcause =>
      refine .halt (.fault f) { m with bindings := b' } (by rw [exec_expression, he]) hb ?_
      rintro t ⟨⟩
      exact hcause t rfl
  | print e =>
    cases e.resolves h with
    | value v b' he hb hnames =>
      cases hwrite : Sink.write (v.display ++ "\n") m.output with
      | ok _ out =>
        refine .done { m with bindings := b', output := out } ?_
          (by rwa [declared, List.append_nil]) hnames
        rw [exec_print, he]
        exact zoom_of_ok hwrite
      | error e' out =>
        refine .halt (.output e') { m with bindings := b', output := out } ?_ hb (by simp)
        rw [exec_print, he]
        exact zoom_of_error hwrite
    | fault f b' he hb hcause =>
      refine .halt (.fault f) { m with bindings := b' } (by rw [exec_print, he]) hb ?_
      rintro t ⟨⟩
      exact hcause t rfl
  | declare name annotation initial =>
    cases initial with
    | none =>
      exact .done _ (exec_declare_none name annotation m) (h.define _ _) (by simp [Stmt.names])
    | some e =>
      cases e.resolves h with
      | value v b' he hb hnames =>
        exact .done { m with bindings := b'.define name.lexeme v } (by rw [exec_declare, he])
          (hb.define _ _) hnames
      | fault f b' he hb hcause =>
        refine .halt (.fault f) { m with bindings := b' } (by rw [exec_declare, he]) hb ?_
        rintro t ⟨⟩
        exact hcause t rfl

namespace Stmt.Resolves

variable {names : List String} {s : Stmt} {m m' : Machine}

theorem of_ok (hs : s.Resolves names m) (h : s.exec m = .ok () m') :
    m'.bindings.Binds (names ++ s.declared) ∧ ∀ x ∈ s.names, x ∈ names := by
  cases hs with
  | done m₁ hs hb hnames =>
    rw [hs] at h
    cases h
    exact ⟨hb, hnames⟩
  | halt e m₁ hs hb hcause =>
    rw [hs] at h
    cases h

theorem of_error {e : Halt} (hs : s.Resolves names m) (h : s.exec m = .error e m') :
    m'.bindings.Binds names ∧ ∀ t, e = .fault (.runtime ⟨t, .undefinedVariable⟩) →
      t.lexeme ∈ s.names ∧ t.lexeme ∉ names := by
  cases hs with
  | done m₁ hs hb hnames =>
    rw [hs] at h
    cases h
  | halt e' m₁ hs hb hcause =>
    rw [hs] at h
    cases h
    exact ⟨hb, hcause⟩

end Stmt.Resolves

namespace Machine

theorem exists_of_run_ok {before after : List Stmt} {m m' : Machine}
    (h : run (before ++ after) m = .ok () m') :
    ∃ m₁, run before m = .ok () m₁ ∧ run after m₁ = .ok () m' := by
  rw [run_append] at h
  cases hbefore : run before m with
  | ok _ m₁ =>
    rw [hbefore] at h
    exact ⟨m₁, rfl, h⟩
  | error e m₁ =>
    rw [hbefore] at h
    cases h

/-- A program that stops does so at one of its statements, with those before it done. -/
theorem exists_of_run_error {program : List Stmt} {m m' : Machine} {h : Halt}
    (hrun : run program m = .error h m') :
    ∃ before s after m₁, program = before ++ s :: after ∧ run before m = .ok () m₁ ∧
      s.exec m₁ = .error h m' := by
  induction program generalizing m with
  | nil => cases hrun
  | cons s program ih =>
    rw [run_cons] at hrun
    cases hs : s.exec m with
    | ok _ m₁ =>
      rw [hs] at hrun
      obtain ⟨before, t, after, m₂, rfl, hbefore, ht⟩ := ih hrun
      exact ⟨s :: before, t, after, m₂, rfl, by rw [run_cons, hs]; exact hbefore, ht⟩
    | error e m₁ =>
      rw [hs] at hrun
      cases hrun
      exact ⟨[], s, program, m, rfl, rfl, hs⟩

/-- A program that is done has met all of its names, each after its declaration. -/
theorem binds_of_run_ok {program : List Stmt} {m m' : Machine} (hm : m.bindings = {})
    (h : run program m = .ok () m') :
    DeclaredBeforeUse program ∧ m'.bindings.Binds (declaredBy program) := by
  induction program using List.reverseRecOn generalizing m' with
  | nil =>
    cases h
    rw [hm]
    exact ⟨declaredBeforeUse_nil, Bindings.binds_empty⟩
  | append_singleton program s ih =>
    obtain ⟨m₁, hprogram, hlast⟩ := exists_of_run_ok h
    obtain ⟨hdeclared, hbinds⟩ := ih hprogram
    rw [run_cons] at hlast
    cases hs : s.exec m₁ with
    | ok _ m₂ =>
      rw [hs] at hlast
      cases hlast
      obtain ⟨hb, hnames⟩ := (s.resolves hbinds).of_ok hs
      rw [declaredBy_concat]
      exact ⟨declaredBeforeUse_concat.2 ⟨hdeclared, hnames⟩, hb⟩
    | error e m₂ =>
      rw [hs] at hlast
      cases hlast

/-- A statement that needs what is not declared before it is never done. -/
theorem exists_of_undeclared {before : List Stmt} {s : Stmt} {m : Machine} (hm : m.bindings = {})
    {x : String} (hx : x ∈ s.names) (hnot : x ∉ declaredBy before) (after : List Stmt) :
    ∃ front t back m₁ h m', before ++ s :: after = front ++ t :: back ∧
      front.length ≤ before.length ∧ run front m = .ok () m₁ ∧ t.exec m₁ = .error h m' ∧
      run (before ++ s :: after) m = .error h m' := by
  have hnever (m' : Machine) (h : run (before ++ [s]) m = .ok () m') : False :=
    hnot ((declaredBeforeUse_concat.1 (binds_of_run_ok hm h).1).2 x hx)
  cases hrun : run (before ++ s :: after) m with
  | ok _ m' =>
    rw [List.append_cons] at hrun
    obtain ⟨m₁, hfront, -⟩ := exists_of_run_ok hrun
    exact (hnever m₁ hfront).elim
  | error h m' =>
    obtain ⟨front, t, back, m₁, hsplit, hfront, ht⟩ := exists_of_run_error hrun
    refine ⟨front, t, back, m₁, h, m', hsplit, ?_, hfront, ht, rfl⟩
    refine Nat.le_of_not_lt fun hlong => ?_
    have hshort : before ++ [s] <+: before ++ s :: after := ⟨after, by simp⟩
    have hprefix : before ++ [s] <+: front := by
      refine List.prefix_of_prefix_length_le hshort ⟨t :: back, hsplit.symm⟩ ?_
      simp only [List.length_append, List.length_singleton]
      omega
    obtain ⟨rest, rfl⟩ := hprefix
    obtain ⟨m₂, hdone, -⟩ := exists_of_run_ok hfront
    exact hnever m₂ hdone

/-- From no variables, with an output that takes everything and operators in their places, the order
of declarations decides what is undefined. A program with all declarations before their uses meets
no undefined variable. A program that is done has them so. At a statement that uses what is not
declared before it, or at one before that, a program stops with a runtime error. And at its end, or
at the statement where it stops, the names that are bound are those declared before. -/
theorem run_declared {program : List Stmt} (hp : ∀ s ∈ program, s.IsPlaced) {m : Machine}
    (hm : m.IsUnlimited) (hfresh : m.bindings = {}) :
    (DeclaredBeforeUse program →
      ∀ t m', run program m ≠ .error (.fault (.runtime ⟨t, .undefinedVariable⟩)) m') ∧
    (∀ m', run program m = .ok () m' →
      DeclaredBeforeUse program ∧ m'.bindings.Binds (declaredBy program)) ∧
    (∀ before s after, program = before ++ s :: after → ∀ x ∈ s.names, x ∉ declaredBy before →
      ∃ front t back m₁ e m', program = front ++ t :: back ∧ front.length ≤ before.length ∧
        run front m = .ok () m₁ ∧ t.exec m₁ = .error (.fault (.runtime e)) m' ∧
        run program m = .error (.fault (.runtime e)) m') ∧
    ∀ h m', run program m = .error h m' →
      ∃ before s after m₁, program = before ++ s :: after ∧ run before m = .ok () m₁ ∧
        s.exec m₁ = .error h m' ∧ m'.bindings.Binds (declaredBy before) := by
  refine ⟨?_, fun m' h => binds_of_run_ok hfresh h, ?_, ?_⟩
  · intro hdeclared t m' hrun
    obtain ⟨before, s, after, m₁, hsplit, hbefore, hs⟩ := exists_of_run_error hrun
    have hbound := (binds_of_run_ok hfresh hbefore).2
    obtain ⟨hused, hnot⟩ := ((s.resolves hbound).of_error hs).2 t rfl
    exact hnot (hdeclared before s after hsplit _ hused)
  · rintro before s after rfl x hx hnot
    obtain ⟨front, t, back, m₁, h, m', hsplit, hle, hfront, ht, hrun⟩ :=
      exists_of_undeclared hfresh hx hnot after
    rcases stops_run hp hm with ⟨m₂, hdone, -⟩ | ⟨e, m₂, hfails⟩
    · rw [hrun] at hdone
      cases hdone
    · rw [hrun] at hfails
      cases hfails
      exact ⟨front, t, back, m₁, e, m', hsplit, hle, hfront, ht, hrun⟩
  · intro h m' hrun
    obtain ⟨before, s, after, m₁, hsplit, hbefore, hs⟩ := exists_of_run_error hrun
    have hbound := (binds_of_run_ok hfresh hbefore).2
    exact ⟨before, s, after, m₁, hsplit, hbefore, hs, ((s.resolves hbound).of_error hs).1⟩

/-- The value of `x` is known where `y` is assigned to, and `y` is not declared. -/
theorem run_declared_assignment :
    let program : List Stmt :=
      [.declare ⟨.identifier, "x", 1⟩ ⟨.identifier, "number", 1⟩ none,
        .expression (.assign ⟨.identifier, "y", 2⟩ (.reference ⟨.identifier, "x", 2⟩))]
    (∀ s ∈ program, s.IsPlaced) ∧ ¬DeclaredBeforeUse program ∧
      ∃ e m', run program {} = .error (.fault (.runtime e)) m' ∧ m'.bindings.Binds ["x"] := by
  intro program
  have hplaced : ∀ s ∈ program, s.IsPlaced := by
    simp [program, Stmt.IsPlaced, Expr.IsPlaced]
  have hundeclared : "y" ∉ declaredBy (program.take 1) := by decide
  obtain ⟨-, -, hstops, hends⟩ := run_declared (m := {}) hplaced rfl rfl
  obtain ⟨front, t, back, m₁, e, m', -, -, -, -, hrun⟩ :=
    hstops (program.take 1) _ [] rfl "y" (by decide) hundeclared
  refine ⟨hplaced, fun h => hundeclared (h _ _ [] rfl "y" (by decide)), e, m', hrun, ?_⟩
  obtain ⟨before, s, after, m₂, hsplit, -, hs, hbinds⟩ := hends _ _ hrun
  cases before with
  | nil =>
    obtain ⟨rfl, -⟩ := List.cons.inj hsplit
    cases hs
  | cons first before =>
    obtain ⟨rfl, hrest⟩ := List.cons.inj hsplit
    cases before with
    | nil => exact hbinds
    | cons second before =>
      have hnil : [] = before ++ s :: after := (List.cons.inj hrest).2
      simp at hnil

end Machine

end TreeWalk

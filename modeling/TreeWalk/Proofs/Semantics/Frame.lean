import TreeWalk.Proofs.Semantics.Coupling

/-! What evaluating touches. It prints nothing, binds no name and unbinds none, and gives another
value only to names that it assigns to. What it comes to depends on its own names alone. -/
namespace TreeWalk

/-- The names that are assigned to. -/
def Expr.targets : Expr → List String
  | assign name value => name.lexeme :: value.targets
  | binary left _ right => left.targets ++ right.targets
  | grouping inner => inner.targets
  | literal _ | reference _ => []
  | unary _ right => right.targets

namespace Bindings

/-- The same names are bound, and all but the given ones to the values that they had. -/
structure ChangesOnly (targets : List String) (b b' : Bindings) : Prop where
  bound : ∀ x, (b'.get? x).isSome = (b.get? x).isSome
  kept : ∀ x, x ∉ targets → b'.get? x = b.get? x

variable {b b₁ b₂ : Bindings} {xs ys : List String}

theorem ChangesOnly.rfl : ChangesOnly xs b b := ⟨fun _ => .refl _, fun _ _ => .refl _⟩

theorem ChangesOnly.trans (h : ChangesOnly xs b b₁) (h' : ChangesOnly xs b₁ b₂) :
    ChangesOnly xs b b₂ :=
  ⟨fun x => (h'.bound x).trans (h.bound x), fun x hx => (h'.kept x hx).trans (h.kept x hx)⟩

theorem ChangesOnly.mono (h : ChangesOnly xs b b₁) (hxs : xs ⊆ ys) : ChangesOnly ys b b₁ :=
  ⟨h.bound, fun x hx => h.kept x fun hmem => hx (hxs hmem)⟩

theorem ChangesOnly.define {x : String} {u : Value} (h : b.get? x = some u) (v : Value) :
    ChangesOnly [x] b (b.define x v) where
  bound y := by
    rw [get?_define]
    split
    · rename_i hxy
      rw [← hxy, h]
      rfl
    · rfl
  kept y hy := get?_define_of_ne (Ne.symm (by simpa using hy)) b v

end Bindings

namespace Evaluation

open Bindings

variable {α β : Type} {xs ys : List String}

/-- Whatever it comes to, the step changes no variables but the given ones. -/
def Touches (targets : List String) (step : Evaluation α) : Prop :=
  ∀ b, ChangesOnly targets b (stateOf (step b))

theorem Touches.mono {step : Evaluation α} (h : Touches xs step) (hxs : xs ⊆ ys) :
    Touches ys step := fun b => (h b).mono hxs

/-- A fault keeps the second step from being taken, and not what the first one changed. -/
theorem Touches.bind {step : Evaluation α} {next : α → Evaluation β} (hstep : Touches xs step)
    (hnext : ∀ a, Touches xs (next a)) : Touches xs (step >>= next) := by
  intro b
  have hfirst := hstep b
  cases h : step b with
  | error f b₁ =>
    rw [h] at hfirst
    rwa [bind_eq_of_error h]
  | ok a b₁ =>
    rw [h] at hfirst
    rw [bind_eq_of_ok h]
    exact hfirst.trans (hnext a b₁)

theorem touches_ofResult (r : Except Fault α) : Touches xs (ofResult r) := by
  intro b
  cases r <;> exact .rfl

theorem touches_read (name : Token) : Touches xs (read name) := by
  intro b
  unfold read
  split <;> exact .rfl

theorem touches_assign (name : Token) (v : Value) : Touches [name.lexeme] (assign name v) := by
  intro b
  rw [assign]
  cases h : b.get? name.lexeme with
  | none =>
    rw [assign_of_get?_none h]
    exact .rfl
  | some u =>
    rw [assign_of_get? h]
    exact .define h v

end Evaluation

namespace Expr

open Evaluation

theorem touches_eval (e : Expr) : Touches e.targets e.eval := by
  induction e with
  | assign name value ih =>
    exact .bind (ih.mono (List.subset_cons_self _ _)) fun v =>
      (touches_assign name v).mono (by simp [targets])
  | binary left op right ihl ihr =>
    exact .bind (ihl.mono (List.subset_append_left _ _)) fun u =>
      .bind (ihr.mono (List.subset_append_right _ _)) fun v => touches_ofResult _
  | grouping inner ih => exact ih
  | literal v => exact fun b => .rfl
  | unary op right ih => exact .bind ih fun v => touches_ofResult _
  | reference name => exact touches_read name

end Expr

namespace Bindings

/-- The given names have the same values in both, where they have one. -/
def AgreeOn (names : List String) (b b' : Bindings) : Prop := ∀ x ∈ names, b.get? x = b'.get? x

theorem AgreeOn.define {names : List String} {b b' : Bindings} (h : AgreeOn names b b') (x : String)
    (v : Value) : AgreeOn names (b.define x v) (b'.define x v) := by
  intro y hy
  rw [get?_define, get?_define, h y hy]

end Bindings

/-- Each of the given names stands for itself, and so does every operator. -/
def Correspondence.among (names : List String) : Correspondence :=
  ⟨fun x x' => x = x' ∧ x.lexeme ∈ names, Eq⟩

theorem Correspondence.couples_among (names : List String) :
    (among names).Couples (Bindings.AgreeOn names) where
  kind_eq := by
    rintro op op' rfl
    rfl
  get?_eq := by
    rintro x x' b b' ⟨rfl, hx⟩ hb
    exact hb _ hx
  define := by
    rintro x x' b b' ⟨rfl, -⟩ hb v
    exact hb.define _ v

theorem Fault.Matches.eq {names : List String} {f f' : Fault}
    (h : f.Matches (.among names) f') : f = f' := by
  cases h with
  | runtime h cause =>
    obtain ⟨rfl, -⟩ | rfl := h
    · rfl
    · rfl
  | stray o => rfl

namespace Expr

open Bindings

theorem matches_among {e : Expr} {names : List String} (h : e.names ⊆ names) :
    e.Matches (.among names) e := by
  induction e with
  | assign name value ih =>
    obtain ⟨hname, hvalue⟩ := List.cons_subset.1 h
    exact .assign ⟨rfl, hname⟩ (ih hvalue)
  | binary left op right ihl ihr =>
    obtain ⟨hleft, hright⟩ := List.append_subset.1 h
    exact .binary (ihl hleft) rfl (ihr hright)
  | grouping inner ih => exact .grouping (ih h)
  | literal v => exact .literal v
  | unary op right ih => exact .unary rfl (ih h)
  | reference name => exact .reference ⟨rfl, h (List.mem_singleton_self _)⟩

theorem eval_of_agreeOn (e : Expr) {b b' : Bindings} (h : AgreeOn e.names b b') :
    outcomeOf (e.eval b) = outcomeOf (e.eval b') ∧
      AgreeOn e.names (stateOf (e.eval b)) (stateOf (e.eval b')) := by
  obtain ⟨halike, hstates⟩ := (matches_among (List.Subset.refl e.names)).alike_eval
    (Correspondence.couples_among e.names) h
  refine ⟨?_, hstates⟩
  generalize outcomeOf (e.eval b) = r, outcomeOf (e.eval b') = r' at halike ⊢
  cases halike with
  | ok hv => rw [hv]
  | error hf => rw [hf.eq]

end Expr

namespace Machine

open Bindings

/-- Whether it fails or not, evaluating prints nothing, binds no name and unbinds none, and keeps
the values of all names but those that it assigns to. And where its names have the same values,
whatever other names have, it comes to the same value or error, and its names have the same values
again. -/
theorem evaluate_local (e : Expr) :
    (∀ m, (stateOf (evaluate e m)).output = m.output ∧
      ChangesOnly e.targets m.bindings (stateOf (evaluate e m)).bindings) ∧
    ∀ m m', AgreeOn e.names m.bindings m'.bindings →
      outcomeOf (evaluate e m) = outcomeOf (evaluate e m') ∧
      AgreeOn e.names (stateOf (evaluate e m)).bindings (stateOf (evaluate e m')).bindings := by
  constructor
  · intro m
    rw [evaluate, stateOf_zoom]
    exact ⟨rfl, e.touches_eval m.bindings⟩
  · intro m m' h
    obtain ⟨houtcome, hstates⟩ := e.eval_of_agreeOn h
    rw [evaluate, outcomeOf_zoom, outcomeOf_zoom, stateOf_zoom, stateOf_zoom]
    exact ⟨congrArg _ houtcome, hstates⟩

/-- In `(y = true) + z` the assignment is done before `z` is found to be undefined, and the value of
`x` does not matter. -/
theorem evaluate_local_undefined :
    let y : Token := ⟨.identifier, "y", 1⟩
    let z : Token := ⟨.identifier, "z", 1⟩
    let e : Expr := .binary (.grouping (.assign y (.literal (.boolean true))))
      ⟨.symbol .plus, "+", 1⟩ (.reference z)
    let m : Machine := { bindings := ({} : Bindings).define "y" .absent }
    let m' : Machine := { bindings := m.bindings.define "x" .absent, output := ⟨"printed", some 0⟩ }
    AgreeOn e.names m.bindings m'.bindings ∧
      outcomeOf (evaluate e m') = .error (.fault (.runtime ⟨z, .undefinedVariable⟩)) ∧
      (stateOf (evaluate e m')).bindings.get? "y" = some (.boolean true) ∧
      (stateOf (evaluate e m')).bindings.get? "x" = some .absent := by
  intro y z e m m'
  have hagree : AgreeOn e.names m.bindings m'.bindings := by
    intro x hx
    have hne : "x" ≠ x := by
      rintro rfl
      exact absurd hx (by decide)
    exact (get?_define_of_ne hne _ _).symm
  have hy : m.bindings.get? y.lexeme = some .absent := get?_define_self _ _ _
  have hz : (m.bindings.define "y" (.boolean true)).get? z.lexeme = none := by
    simp [m, z, get?_define]
  have heval : e.eval m.bindings = .error (.runtime ⟨z, .undefinedVariable⟩)
      (m.bindings.define "y" (.boolean true)) := by
    simp only [e, Expr.eval_binary, Expr.eval_grouping, Expr.eval_assign, Expr.eval_literal,
      Expr.eval_reference, Evaluation.assign, Evaluation.read, assign_of_get? hy,
      read_of_get?_none hz, y]
  have hevaluate : zoom bindings (fun m b => { m with bindings := b }) Halt.fault e.eval m =
      .error (.fault (.runtime ⟨z, .undefinedVariable⟩))
        { m with bindings := m.bindings.define "y" (.boolean true) } := zoom_of_error heval
  obtain ⟨hframe, hlocal⟩ := evaluate_local e
  obtain ⟨houtcome, hstates⟩ := hlocal m m' hagree
  refine ⟨hagree, ?_, ?_, ?_⟩
  · rw [← houtcome, evaluate, hevaluate, outcomeOf_error]
  · rw [← hstates "y" (by decide), evaluate, hevaluate, stateOf_error]
    exact get?_define_self _ _ _
  · rw [(hframe m').2.kept "x" (by decide)]
    exact get?_define_self _ _ _

end Machine

end TreeWalk

import Mathlib.Data.List.Induction
import TreeWalk.Semantics.Bindings
import TreeWalk.Semantics.Zoom

/-! Variables after many operations. A name can be read and assigned to as soon as it has been
defined, and it has the value that was last written to it. An operation that fails leaves no
trace. -/
namespace TreeWalk

namespace Bindings

inductive Operation
  | define (name : String) (v : Value)
  | assign (name : Token) (v : Value)
  | read (name : Token)

/-- Only reading answers with a value. -/
def Operation.perform : Operation → EStateM RuntimeError Bindings (Option Value)
  | define name v => fun b => .ok none (b.define name v)
  | assign name v => fun b =>
    match b.assign name v with
    | .ok b' => .ok none b'
    | .error e => .error e b
  | read name => fun b =>
    match b.read name with
    | .ok v => .ok (some v) b
    | .error e => .error e b

/-- The variables after operations, done in order. -/
def afterAll (b : Bindings) (ops : List Operation) : Bindings :=
  ops.foldl (fun b op => stateOf (op.perform b)) b

/-- What operations answer that are done in order. -/
def answers : Bindings → List Operation → List (Except RuntimeError (Option Value))
  | _, [] => []
  | b, op :: ops => outcomeOf (op.perform b) :: answers (stateOf (op.perform b)) ops

@[simp] theorem afterAll_nil (b : Bindings) : b.afterAll [] = b := rfl

@[simp] theorem afterAll_cons (b : Bindings) (op : Operation) (ops : List Operation) :
    b.afterAll (op :: ops) = afterAll (stateOf (op.perform b)) ops := rfl

@[simp] theorem afterAll_append (b : Bindings) (ops more : List Operation) :
    b.afterAll (ops ++ more) = (b.afterAll ops).afterAll more := List.foldl_append

theorem answers_append (b : Bindings) (ops more : List Operation) :
    answers b (ops ++ more) = answers b ops ++ answers (b.afterAll ops) more := by
  induction ops generalizing b with
  | nil => rfl
  | cons op ops ih => simp only [List.cons_append, answers, ih, afterAll_cons]

@[simp] theorem length_answers (b : Bindings) (ops : List Operation) :
    (answers b ops).length = ops.length := by
  induction ops generalizing b with
  | nil => rfl
  | cons op ops ih => simp [answers, ih]

namespace Operation

/-- The operation gives the name this value. An assignment does so only where it succeeds. -/
inductive Writes (b : Bindings) (x : String) (v : Value) : Operation → Prop
  | define : Writes b x v (.define x v)
  | assign {name : Token} {b' : Bindings} (hname : name.lexeme = x)
      (h : b.assign name v = .ok b') : Writes b x v (.assign name v)

variable {op : Operation} {b : Bindings} {x : String}

theorem stateOf_perform_of_error {e : RuntimeError} (h : outcomeOf (op.perform b) = .error e) :
    stateOf (op.perform b) = b := by
  cases op with
  | define name v => cases h
  | assign name v =>
    simp only [perform] at h ⊢
    cases hassign : b.assign name v with
    | ok b' => simp [hassign] at h
    | error e' => rfl
  | read name =>
    simp only [perform]
    cases b.read name <;> rfl

theorem perform_assign_eq_error_iff {name : Token} {v : Value} {e : RuntimeError} :
    outcomeOf ((assign name v).perform b) = .error e ↔
      e = ⟨name, .undefinedVariable⟩ ∧ b.get? name.lexeme = none := by
  simp only [perform]
  cases hget : b.get? name.lexeme with
  | none => simp [assign_of_get?_none hget, eq_comm]
  | some u => simp [assign_of_get? hget]

theorem perform_read_eq_error_iff {name : Token} {e : RuntimeError} :
    outcomeOf ((read name).perform b) = .error e ↔
      e = ⟨name, .undefinedVariable⟩ ∧ b.get? name.lexeme = none := by
  simp only [perform]
  cases hget : b.get? name.lexeme with
  | none => simp [read_of_get?_none hget, eq_comm]
  | some u => simp [read_of_get? hget]

theorem perform_read_eq_ok_iff {name : Token} {v : Value} :
    outcomeOf ((read name).perform b) = .ok (some v) ↔ b.get? name.lexeme = some v := by
  simp only [perform]
  cases hget : b.get? name.lexeme with
  | none => simp [read_of_get?_none hget]
  | some u => simp [read_of_get? hget]

theorem Writes.get?_eq {v : Value} (h : op.Writes b x v) :
    (stateOf (op.perform b)).get? x = some v := by
  cases h with
  | define => exact get?_define_self b x v
  | @assign name b' hname h =>
    cases hget : b.get? name.lexeme with
    | none => simp [assign_of_get?_none hget] at h
    | some u =>
      simp only [perform, assign_of_get? hget, stateOf_ok]
      rw [← hname]
      exact get?_define_self b name.lexeme v

theorem get?_of_not_writes (h : ∀ v, ¬op.Writes b x v) :
    (stateOf (op.perform b)).get? x = b.get? x := by
  cases op with
  | define name v =>
    refine get?_define_of_ne ?_ b v
    rintro rfl
    exact h v .define
  | assign name v =>
    simp only [perform]
    cases hget : b.get? name.lexeme with
    | none => rw [assign_of_get?_none hget, stateOf_error]
    | some u =>
      rw [assign_of_get? hget, stateOf_ok]
      refine get?_define_of_ne ?_ b v
      rintro rfl
      exact h v (.assign rfl (assign_of_get? hget v))
  | read name =>
    simp only [perform]
    cases b.read name <;> rfl

end Operation

/-- None of the operations, done in order, gives the name a value. -/
def Untouched (x : String) : Bindings → List Operation → Prop
  | _, [] => True
  | b, op :: ops => (∀ v, ¬op.Writes b x v) ∧ Untouched x (stateOf (op.perform b)) ops

/-- The value was written to the name, and nothing has been written to it since. -/
def LastWritten (history : List Operation) (x : String) (v : Value) : Prop :=
  ∃ before op later, history = before ++ op :: later ∧ op.Writes (afterAll {} before) x v ∧
    Untouched x (afterAll {} (before ++ [op])) later

variable {x : String}

theorem Untouched.get?_eq {b : Bindings} {ops : List Operation} (h : Untouched x b ops) :
    (b.afterAll ops).get? x = b.get? x := by
  induction ops generalizing b with
  | nil => rfl
  | cons op ops ih => exact (ih h.2).trans (Operation.get?_of_not_writes h.1)

theorem Untouched.concat {b : Bindings} {ops : List Operation} {op : Operation}
    (h : Untouched x b ops) (hop : ∀ v, ¬op.Writes (b.afterAll ops) x v) :
    Untouched x b (ops ++ [op]) := by
  induction ops generalizing b with
  | nil => exact ⟨hop, trivial⟩
  | cons first ops ih => exact ⟨h.1, ih h.2 hop⟩

/-- Variables have the values that were last written to them. -/
theorem get?_afterAll_eq_some_iff {history : List Operation} {v : Value} :
    (afterAll {} history).get? x = some v ↔ LastWritten history x v := by
  constructor
  · intro h
    induction history using List.reverseRecOn with
    | nil => simp at h
    | append_singleton history op ih =>
      rw [afterAll_append, afterAll_cons, afterAll_nil] at h
      by_cases hop : ∃ u, op.Writes (afterAll {} history) x u
      · obtain ⟨u, hu⟩ := hop
        obtain rfl : u = v := Option.some.inj (hu.get?_eq.symm.trans h)
        exact ⟨history, op, [], rfl, hu, trivial⟩
      · rw [not_exists] at hop
        rw [Operation.get?_of_not_writes hop] at h
        obtain ⟨before, last, later, rfl, hlast, hlater⟩ := ih h
        refine ⟨before, last, later ++ [op], by simp, hlast, hlater.concat ?_⟩
        rwa [← afterAll_append, List.append_assoc]
  · rintro ⟨before, op, later, rfl, hop, hlater⟩
    rw [List.append_cons, afterAll_append, hlater.get?_eq, afterAll_append]
    exact hop.get?_eq

/-- A name has a value once it has been defined. -/
theorem get?_afterAll_eq_none_iff {history : List Operation} :
    (afterAll {} history).get? x = none ↔ ∀ v, .define x v ∉ history := by
  induction history using List.reverseRecOn with
  | nil => simp
  | append_singleton history op ih =>
    rw [afterAll_append, afterAll_cons, afterAll_nil]
    by_cases hop : ∃ u, op.Writes (afterAll {} history) x u
    · obtain ⟨u, hu⟩ := hop
      have hdefined : ∃ v, .define x v ∈ history ++ [op] := by
        cases hu with
        | define => exact ⟨u, by simp⟩
        | @assign name b' hname h =>
          -- An assignment succeeds only where there is a value already, and so a definition.
          have hnone : (afterAll {} history).get? x ≠ none := by
            intro hget
            rw [← hname] at hget
            simp [assign_of_get?_none hget] at h
          rw [Ne, ih, not_forall] at hnone
          obtain ⟨v, hv⟩ := hnone
          exact ⟨v, List.mem_append_left _ (not_not.1 hv)⟩
      obtain ⟨v, hv⟩ := hdefined
      rw [hu.get?_eq]
      exact iff_of_false (by simp) fun h => h v hv
    · rw [not_exists] at hop
      rw [Operation.get?_of_not_writes hop, ih]
      refine forall_congr' fun v => not_congr ?_
      rw [List.mem_append, List.mem_singleton]
      refine (or_iff_left ?_).symm
      rintro rfl
      exact hop v .define

/-- The answers that follow a failure are those that would have been given without it. -/
theorem answers_of_error {history : List Operation} {op : Operation} {e : RuntimeError}
    (h : outcomeOf (op.perform (afterAll {} history)) = .error e) (later : List Operation) :
    answers {} (history ++ op :: later) =
      answers {} history ++ .error e :: (answers {} (history ++ later)).drop history.length := by
  rw [answers_append, answers_append, List.drop_left' (length_answers {} history), answers, h,
    Operation.stateOf_perform_of_error h]

/-- A name cannot be assigned to or read before it has been defined, a failure changes no later
answer, and what is read is what was last written. -/
theorem last_write_wins (history : List Operation) :
    (∀ (name : Token) (v : Value) (e : RuntimeError),
      outcomeOf ((Operation.assign name v).perform (afterAll {} history)) = .error e ↔
        e = ⟨name, .undefinedVariable⟩ ∧ ∀ u, .define name.lexeme u ∉ history) ∧
    (∀ (name : Token) (e : RuntimeError),
      outcomeOf ((Operation.read name).perform (afterAll {} history)) = .error e ↔
        e = ⟨name, .undefinedVariable⟩ ∧ ∀ u, .define name.lexeme u ∉ history) ∧
    (∀ (op : Operation) (e : RuntimeError),
      outcomeOf (op.perform (afterAll {} history)) = .error e → ∀ later,
        answers {} (history ++ op :: later) = answers {} history ++
          .error e :: (answers {} (history ++ later)).drop history.length) ∧
    ∀ (name : Token) (v : Value),
      outcomeOf ((Operation.read name).perform (afterAll {} history)) = .ok (some v) ↔
        LastWritten history name.lexeme v := by
  refine ⟨fun name v e => ?assign, fun name e => ?read, fun op e h later => ?failure,
    fun name v => ?value⟩
  case assign => rw [Operation.perform_assign_eq_error_iff, get?_afterAll_eq_none_iff]
  case read => rw [Operation.perform_read_eq_error_iff, get?_afterAll_eq_none_iff]
  case failure => exact answers_of_error h later
  case value => rw [Operation.perform_read_eq_ok_iff, get?_afterAll_eq_some_iff]

theorem last_write_wins_undefined :
    let x : Token := ⟨.identifier, "x", 1⟩
    let y : Token := ⟨.identifier, "y", 2⟩
    let history : List Operation := [.define "x" .absent, .assign x (.boolean true)]
    let failing : Operation := .assign y (.boolean false)
    outcomeOf (failing.perform (afterAll {} history)) = .error ⟨y, .undefinedVariable⟩ ∧
      answers {} (history ++ failing :: [.read x]) =
        [.ok none, .ok none, .error ⟨y, .undefinedVariable⟩, .ok (some (.boolean true))] := by
  intro x y history failing
  have hx : (({} : Bindings).define "x" .absent).get? x.lexeme = some .absent :=
    get?_define_self _ _ _
  have hanswers : answers {} (history ++ [.read x]) =
      [.ok none, .ok none, .ok (some (.boolean true))] := by
    simp [history, answers, Operation.perform, assign_of_get? hx,
      read_of_get? (get?_define_self _ x.lexeme (.boolean true))]
  obtain ⟨hassign, -, hfailure, -⟩ := last_write_wins history
  have hfails := (hassign y (.boolean false) ⟨y, .undefinedVariable⟩).2
    ⟨rfl, by simp [history, y]⟩
  refine ⟨hfails, ?_⟩
  rw [hfailure failing _ hfails, hanswers]
  simp [history, answers, Operation.perform, assign_of_get? hx]

end Bindings

end TreeWalk

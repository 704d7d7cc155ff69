import TreeWalk.Proofs.Semantics.Stops
import TreeWalk.Proofs.Text.Sink

/-! What programs do with their output. A statement prints at most one value, and what it does
otherwise does not depend on the output. With an output for so many line feeds a program does what
it does with one that takes everything, up to the first value that does not fit. -/
namespace TreeWalk

namespace Machine

/-- The text of a printed value. -/
def lineOf (v : Value) : String := v.display ++ "\n"

theorem print_of_ok {v : Value} {m : Machine} {out : Sink}
    (h : Sink.write (lineOf v) m.output = .ok () out) :
    print v m = .ok () { m with output := out } := zoom_of_ok h

theorem print_of_error {v : Value} {m : Machine} {e : StreamError} {out : Sink}
    (h : Sink.write (lineOf v) m.output = .error e out) :
    print v m = .error (.output e) { m with output := out } := zoom_of_error h

theorem output_print (v : Value) (m : Machine) :
    (stateOf (print v m)).output = m.output.after (lineOf v) := by
  rw [print, stateOf_zoom]
  rfl

end Machine

/-- Texts are all that a statement gives to its output. -/
theorem Stmt.output_exec (s : Stmt) (m : Machine) :
    ∃ t, (stateOf (s.exec m)).output = m.output.after t := by
  obtain ⟨b, out⟩ := m
  cases s.acts b with
  | faults e f b' _ _ h => exact ⟨"", by rw [h, Sink.after_empty]; rfl⟩
  | silent b' h => exact ⟨"", by rw [h, Sink.after_empty]; rfl⟩
  | prints e v b' hs he h => exact ⟨Machine.lineOf v, by rw [h, Machine.output_print]⟩

namespace Machine

theorem output_run (program : List Stmt) (m : Machine) :
    ∃ t, (stateOf (run program m)).output = m.output.after t := by
  induction program generalizing m with
  | nil => exact ⟨"", (Sink.after_empty _).symm⟩
  | cons s program ih =>
    obtain ⟨t, ht⟩ := s.output_exec m
    rw [run_cons]
    cases hexec : s.exec m with
    | ok _ m₁ =>
      rw [hexec] at ht
      obtain ⟨t', ht'⟩ := ih m₁
      exact ⟨t ++ t', by rw [Sink.after_append, ← ht]; exact ht'⟩
    | error e m₁ =>
      rw [hexec] at ht
      exact ⟨t, ht⟩

/-- The machine with a text before what it has printed. -/
def behind (front : String) (m : Machine) : Machine := { m with output := m.output.behind front }

theorem print_behind (front : String) (v : Value) (m : Machine) :
    print v (m.behind front) = onState (behind front) (print v m) := by
  simp only [print, zoom, behind, Sink.write_behind]
  cases Sink.write (v.display ++ "\n") m.output <;> rfl

end Machine

theorem Stmt.exec_behind (front : String) (s : Stmt) (m : Machine) :
    s.exec (m.behind front) = onState (Machine.behind front) (s.exec m) := by
  obtain ⟨b, out⟩ := m
  cases s.acts b with
  | faults e f b' _ _ h => rw [h, Machine.behind, h]; rfl
  | silent b' h => rw [h, Machine.behind, h]; rfl
  | prints e v b' _ _ h =>
    rw [h, Machine.behind, h]
    exact Machine.print_behind front v ⟨b', out⟩

namespace Machine

/-- What was printed before is of no account for what a program does. -/
theorem run_behind (front : String) (program : List Stmt) (m : Machine) :
    run program (m.behind front) = onState (behind front) (run program m) := by
  induction program generalizing m with
  | nil => rfl
  | cons s program ih =>
    rw [run_cons, run_cons, s.exec_behind]
    cases s.exec m with
    | ok _ m₁ => exact ih m₁
    | error h m₁ => rfl

theorem IsUnlimited.of_after {m m' : Machine} {t : String} (hm : m.IsUnlimited)
    (h : m'.output = m.output.after t) : m'.IsUnlimited := by
  rw [IsUnlimited, h, Sink.after_of_unlimited hm]

theorem isUnlimited_run (program : List Stmt) {m : Machine} (hm : m.IsUnlimited) :
    (stateOf (run program m)).IsUnlimited := by
  obtain ⟨t, ht⟩ := output_run program m
  exact hm.of_after ht

/-- The machine with an output for `n` line feeds in place of one that takes everything. -/
def limited (n : Nat) (m : Machine) : Machine :=
  { m with output := .limited n m.output.text }

/-- The first text of a program that does not fit is the value of one of its `print` statements.
The other machine is the one that has printed this value in full. -/
inductive Overruns (n : Nat) (program : List Stmt) (m : Machine) : Machine → Prop
  | print {before after : List Stmt} {e : Expr} {m₁ : Machine} {v : Value} {b : Bindings}
    (hprogram : program = before ++ .print e :: after) (hbefore : run before m = .ok () m₁)
    (hfits : Fits n m₁.output.text) (hvalue : e.eval m₁.bindings = .ok v b)
    (hover : ¬Fits n (m₁.output.text ++ lineOf v)) :
    Overruns n program m ⟨b, m₁.output.after (lineOf v)⟩

theorem Overruns.cons {n : Nat} {s : Stmt} {program : List Stmt} {m m₁ m' : Machine}
    (h : Overruns n program m₁ m') (hs : s.exec m = .ok () m₁) :
    Overruns n (s :: program) m m' := by
  cases h with
  | @print before after e m₂ v b hprogram hbefore hfits hvalue hover =>
    have hrun : run (s :: before) m = .ok () m₂ := by
      rw [run_cons, hs]
      exact hbefore
    exact .print (by rw [hprogram, List.cons_append]) hrun hfits hvalue hover

theorem Overruns.not_fits {n : Nat} {program : List Stmt} {m m' : Machine}
    (h : Overruns n program m m') (hm : m.IsUnlimited) :
    m'.IsUnlimited ∧ ¬Fits n m'.output.text := by
  cases h with
  | @print before after e m₁ v b hprogram hbefore hfits hvalue hover =>
    have hm₁ := isUnlimited_run before hm
    rw [hbefore, stateOf_ok] at hm₁
    rw [IsUnlimited, Sink.after_of_unlimited hm₁]
    exact ⟨rfl, hover⟩

end Machine

/-- With a limit a statement does the same, unless it prints a value that does not fit. -/
theorem Stmt.exec_limited {n : Nat} (s : Stmt) {m : Machine} (hm : m.IsUnlimited)
    (hfits : Fits n m.output.text) :
    (Fits n (stateOf (s.exec m)).output.text ∧
      s.exec (m.limited n) = onState (Machine.limited n) (s.exec m)) ∨
    ∃ e v b, s = .print e ∧ e.eval m.bindings = .ok v b ∧
      ¬Fits n (m.output.text ++ Machine.lineOf v) ∧
      stateOf (s.exec m) = ⟨b, m.output.after (Machine.lineOf v)⟩ ∧
      s.exec (m.limited n) =
        .error (.output .full) (Machine.limited n ⟨b, m.output.after (Machine.lineOf v)⟩) := by
  obtain ⟨b, text, room⟩ := m
  obtain rfl : room = none := hm
  cases s.acts b with
  | faults e f b' _ _ h =>
    rw [h]
    exact .inl ⟨hfits, h _⟩
  | silent b' h =>
    rw [h]
    exact .inl ⟨hfits, h _⟩
  | prints e v b' hs he h =>
    have hwrite : Sink.write (Machine.lineOf v) ⟨text, none⟩ =
        .ok () ⟨text ++ Machine.lineOf v, none⟩ := rfl
    have hprint := Machine.print_of_ok (m := ⟨b', ⟨text, none⟩⟩) hwrite
    have hlimit := h (.limited n text)
    rw [h, hprint]
    by_cases hover : Fits n (text ++ Machine.lineOf v)
    · refine .inl ⟨hover, hlimit.trans ?_⟩
      exact Machine.print_of_ok (Sink.write_limited hover)
    · refine .inr ⟨e, v, b', hs, he, hover, rfl, hlimit.trans ?_⟩
      exact Machine.print_of_error (Sink.write_limited_of_not_fits hfits hover)

namespace Machine

/-- With a limit a program does the same, up to the first value that does not fit: it stops at that
value, of which a part has been printed. -/
theorem run_limited {n : Nat} (program : List Stmt) {m : Machine} (hm : m.IsUnlimited)
    (hfits : Fits n m.output.text) :
    (Fits n (stateOf (run program m)).output.text ∧
      run program (m.limited n) = onState (limited n) (run program m)) ∨
    ∃ m', Overruns n program m m' ∧
      (∃ t, (stateOf (run program m)).output = m'.output.after t) ∧
      run program (m.limited n) = .error (.output .full) (m'.limited n) := by
  induction program generalizing m with
  | nil => exact .inl ⟨hfits, rfl⟩
  | cons s program ih =>
    rw [run_cons, run_cons]
    rcases s.exec_limited hm hfits with ⟨hfits₁, hlimit⟩ | ⟨e, v, b, rfl, he, hover, hstate, hlimit⟩
    · rw [hlimit]
      obtain ⟨t, ht⟩ := s.output_exec m
      cases hexec : s.exec m with
      | error h m₁ => exact .inl ⟨by rwa [hexec] at hfits₁, rfl⟩
      | ok _ m₁ =>
        rw [hexec] at hfits₁ ht
        rcases ih (hm.of_after ht) hfits₁ with hrest | ⟨m', hoverruns, hafter, hrest⟩
        · exact .inl hrest
        · exact .inr ⟨m', hoverruns.cons hexec, hafter, hrest⟩
    · have hoverruns : Overruns n (.print e :: program) m ⟨b, m.output.after (lineOf v)⟩ :=
        @Overruns.print n _ m [] program e m v b rfl rfl hfits he hover
      refine .inr ⟨_, hoverruns, ?_, by rw [hlimit]⟩
      cases hexec : (Stmt.print e).exec m with
      | error h m₁ =>
        rw [hexec] at hstate
        exact ⟨"", by rw [Sink.after_empty]; exact congrArg output hstate⟩
      | ok _ m₁ =>
        rw [hexec] at hstate
        obtain ⟨t, ht⟩ := output_run program m₁
        exact ⟨t, by rw [← congrArg output hstate]; exact ht⟩

end Machine

end TreeWalk

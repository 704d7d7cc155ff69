import TreeWalk.Console.CommandLine
import TreeWalk.Proofs.Console.InputLines
import TreeWalk.Proofs.Console.Muffled
import TreeWalk.Proofs.Console.Places
import TreeWalk.Proofs.Lexis.Rendering
import TreeWalk.Proofs.Semantics.Blame

/-! What a finished command leaves behind. The exit code of a file's run says how the run ended, and
what was printed and reported fits it. The prompt ends well on every input that is UTF-8. -/
namespace TreeWalk

/-- The lexeme of a name or an operator stands on one line. -/
theorem lineFeed_not_mem_lexeme {source : String} {t : Token} (h : t ∈ tokensOf source)
    (ht : t.IsNameOrOperator) : '\n' ∉ t.lexeme.toList := by
  have hkind : t.kind = .identifier ∨ ∃ s, t.kind = .symbol s :=
    ht.imp_right fun ⟨s, _, hs⟩ => ⟨s, hs⟩
  rw [tokensOf_eq, List.mem_append, List.mem_singleton] at h
  rcases h with hinner | rfl
  · exact (spells_of_mem_innerTokensOf hinner).lineFeed_not_mem hkind
  · simp [endToken] at hkind

theorem RuntimeError.lineFeed_not_mem_message {e : RuntimeError}
    (h : '\n' ∉ e.token.lexeme.toList) : '\n' ∉ e.message.toList := by
  obtain ⟨token, cause⟩ := e
  cases cause with
  | undefinedVariable | unsupportedOperator =>
    simp only [message, String.toList_append, List.mem_append, not_or]
    exact ⟨⟨by decide, h⟩, by decide⟩
  | _ =>
    simp only [message]
    decide

theorem lineFeed_not_mem_toString (n : Nat) : '\n' ∉ (toString n).toList := by
  intro h
  have hdigit : '\n'.isDigit :=
    Nat.isDigit_of_mem_toDigits (b := 10) (n := n) (by decide) (by decide)
      (by simpa [toString, Nat.repr] using h)
  exact absurd hdigit (by decide)

/-- What a runtime error is reported as. -/
def RuntimeError.text (e : RuntimeError) : String :=
  "[line " ++ toString e.token.line ++ "] Runtime error: " ++ e.message

theorem Diagnostic.listing_runtimeError (e : RuntimeError) :
    listing [e.diagnostic] = e.text ++ "\n" := by
  have hdisplay : e.diagnostic.display = e.text := e.diagnostic.text_report.symm
  simp [listing, hdisplay]

theorem Diagnostic.listing_ne_empty {ds : List Diagnostic} (h : ds ≠ []) : listing ds ≠ "" := by
  cases ds with
  | nil => exact absurd rfl h
  | cons d ds => simp [listing]

/-- The report of a failed run is one line. -/
theorem lineFeed_not_mem_text {source : String} {e : RuntimeError} {m m' : Machine}
    (h : Machine.run (programOf source) m = .error (.fault (.runtime e)) m') :
    '\n' ∉ e.text.toList := by
  have hblamed := Machine.blames_of_run_error (Program.isWellFormed_statements _) h
  have hmessage := RuntimeError.lineFeed_not_mem_message
    (lineFeed_not_mem_lexeme (Machine.token_mem_of_run_error h) hblamed)
  have hline := lineFeed_not_mem_toString e.token.line
  simp only [RuntimeError.text, String.toList_append, List.mem_append, not_or]
  exact ⟨⟨⟨by decide, hline⟩, by decide⟩, hmessage⟩

/-- From no variables the program prints a text, and stops with a runtime error at the statement
after that. -/
def FailsAfter (printed : String) (program : List Stmt) (e : RuntimeError) : Prop :=
  ∃ before s after m m', program = before ++ s :: after ∧
    Machine.run before {} = .ok () m ∧ s.exec m = .error (.fault (.runtime e)) m' ∧
    m.output.text = printed

theorem FailsAfter.exists_run {printed : String} {program : List Stmt} {e : RuntimeError}
    (h : FailsAfter printed program e) :
    ∃ m, Machine.run program {} = .error (.fault (.runtime e)) m := by
  obtain ⟨before, s, after, m, m', hsplit, hbefore, hs, -⟩ := h
  exact ⟨m', by simp only [hsplit, Machine.run_append, hbefore, Machine.run_cons, hs]⟩

theorem failsAfter_of_run {program : List Stmt} {e : RuntimeError} {m : Machine}
    (h : Machine.run program {} = .error (.fault (.runtime e)) m) :
    FailsAfter m.output.text program e := by
  obtain ⟨before, s, after, m₁, hsplit, hbefore, hs⟩ := Machine.exists_of_run_error h
  obtain ⟨-, -, -, houtput⟩ := Stmt.exists_of_exec_fault hs
  exact ⟨before, s, after, m₁, m, hsplit, hbefore, hs, congrArg Sink.text houtput.symm⟩

namespace Session

/-- Without limits a line of the prompt's input fails only if it is not UTF-8. -/
theorem runLines_of_hearsAll (lines : List (List UInt8)) {s : Session Sink}
    (hs : s.machine.IsUnlimited) (hl : s.HearsAll) :
    ((∀ line ∈ lines, (Prompt.decode? line).isSome) → ∃ s', runLines lines s = .ok () s') ∧
      ((¬∀ line ∈ lines, (Prompt.decode? line).isSome) →
        ∃ s', runLines lines s = .error (.stream .notUtf8) s') := by
  induction lines generalizing s with
  | nil => exact ⟨fun _ => ⟨s.prompted, writePrompt_eq hs⟩, fun h => absurd (by simp) h⟩
  | cons line rest ih =>
    rw [runLines_cons, writePrompt_eq hs, List.forall_mem_cons]
    cases hline : Prompt.decode? line with
    | none =>
      simp only [runLine_of_not_utf8 hline]
      exact ⟨by simp, fun _ => ⟨_, rfl⟩⟩
    | some text =>
      obtain ⟨r, s₁, -, hl₁, hrun, hs₁⟩ :=
        exists_run_of_hearsAll (Prompt.trimEnd text) (s := s.prompted) hs hl
      simp only [runLine_of_run_ok hline hrun, Option.isSome_some, true_and]
      exact ih hs₁ (congrArg Sink.room hl₁)

end Session

namespace CommandLine

/-- The file holds a source that has this program. -/
def IsAccepted (contents : Except FileError (List UInt8)) (program : List Stmt) : Prop :=
  ∃ bytes source, contents = .ok bytes ∧ Prompt.decode? bytes = some source ∧
    IsSourceOf source program

/-- A file holds one program. -/
theorem IsAccepted.eq {contents : Except FileError (List UInt8)} {program program' : List Stmt}
    (h : IsAccepted contents program) (h' : IsAccepted contents program') : program = program' := by
  obtain ⟨bytes, source, rfl, hdecode, hsource⟩ := h
  obtain ⟨bytes', source', hbytes, hdecode', hsource'⟩ := h'
  cases hbytes
  obtain rfl := Option.some.inj (hdecode.symm.trans hdecode')
  exact hsource.programOf_eq.2.symm.trans hsource'.programOf_eq.2

/-- The file cannot be read, is not UTF-8, or holds a source that has no program. -/
inductive IsRefused : Except FileError (List UInt8) → Prop
  | unreadable (e : FileError) : IsRefused (.error e)
  | undecodable {bytes : List UInt8} (h : Prompt.decode? bytes = none) : IsRefused (.ok bytes)
  | rejected {bytes : List UInt8} {source : String} (hdecode : Prompt.decode? bytes = some source)
    (h : ∀ program, ¬IsSourceOf source program) : IsRefused (.ok bytes)

theorem IsRefused.not_isAccepted {contents : Except FileError (List UInt8)}
    (h : IsRefused contents) (program : List Stmt) : ¬IsAccepted contents program := by
  rintro ⟨bytes, source, rfl, hdecode, hsource⟩
  cases h with
  | undecodable h =>
    rw [h] at hdecode
    cases hdecode
  | rejected hdecode' h =>
    rw [hdecode'] at hdecode
    cases hdecode
    exact h program hsource

/-- How the command with one argument can end. -/
inductive Concludes (contents : Except FileError (List UInt8)) : Completion → Prop
  | refused {stderr : String} (h : IsRefused contents) (hne : stderr ≠ "") :
    Concludes contents ⟨65, "", stderr⟩
  | finished {program : List Stmt} {m : Machine} (h : IsAccepted contents program)
    (hrun : Machine.run program {} = .ok () m) : Concludes contents ⟨0, m.output.text, ""⟩
  | failed {program : List Stmt} {e : RuntimeError} {m : Machine}
    (h : IsAccepted contents program) (hline : '\n' ∉ e.text.toList)
    (hrun : Machine.run program {} = .error (.fault (.runtime e)) m) :
    Concludes contents ⟨70, m.output.text, e.text ++ "\n"⟩

namespace Concludes

variable {contents : Except FileError (List UInt8)} {c : Completion}

theorem exit_cases (h : Concludes contents c) : c.exit = 0 ∨ c.exit = 65 ∨ c.exit = 70 := by
  cases h <;> simp

theorem exit_eq_zero_iff (h : Concludes contents c) : c.exit = 0 ↔ c.stderr = "" := by
  cases h with
  | refused h hne => simp [hne]
  | finished h hrun => simp
  | failed h hline hrun => simp

theorem exit_eq_refused_iff (h : Concludes contents c) : c.exit = 65 ↔ IsRefused contents := by
  cases h with
  | refused h hne => simp [h]
  | finished h hrun | failed h hline hrun =>
    simpa using fun hrefused => hrefused.not_isAccepted _ h

theorem stdout_of_refused (h : Concludes contents c) (hexit : c.exit = 65) : c.stdout = "" := by
  cases h with
  | refused h hne => rfl
  | finished h hrun | failed h hline hrun => simp at hexit

/-- What is kept of a program that fails. -/
theorem exists_of_failed (h : Concludes contents c) (hexit : c.exit = 70) :
    ∃ program e, IsAccepted contents program ∧ FailsAfter c.stdout program e ∧
      '\n' ∉ e.text.toList ∧ c.stderr = e.text ++ "\n" := by
  cases h with
  | refused h hne | finished h hrun => simp at hexit
  | failed h hline hrun => exact ⟨_, _, h, failsAfter_of_run hrun, hline, rfl⟩

theorem exit_eq_failed_iff (h : Concludes contents c) :
    c.exit = 70 ↔
      ∃ program, IsAccepted contents program ∧ ∃ printed e, FailsAfter printed program e := by
  constructor
  · intro hexit
    obtain ⟨program, e, haccepted, hfails, -⟩ := h.exists_of_failed hexit
    exact ⟨program, haccepted, _, e, hfails⟩
  · rintro ⟨program, haccepted, printed, e, hfails⟩
    obtain ⟨m, hfailed⟩ := hfails.exists_run
    cases h with
    | refused h hne => exact absurd haccepted (h.not_isAccepted program)
    | finished h hrun =>
      rw [haccepted.eq h, hrun] at hfailed
      cases hfailed
    | failed h hline hrun => rfl

end Concludes

theorem concludes_runSource {bytes : List UInt8} {source : String}
    (hdecode : Prompt.decode? bytes = some source) (path : String) :
    Concludes (.ok bytes) (runSource path source) := by
  obtain ⟨r, ⟨m, l⟩, hends, rfl, hrun, -⟩ :=
    Session.exists_run_of_hearsAll source (s := start) rfl rfl
  have hempty : start.listener.text = "" := rfl
  simp only [runSource, hrun, complete, hempty, String.empty_append, String.append_empty]
  have haccepted (h : diagnosticsOf source = []) : IsAccepted (.ok bytes) (programOf source) :=
    ⟨bytes, source, rfl, hdecode, isSourceOf_programOf h⟩
  cases hends with
  | rejected h =>
    have hnone (program : List Stmt) : ¬IsSourceOf source program :=
      fun hsource => h hsource.programOf_eq.1
    exact .refused (.rejected hdecode hnone) (Diagnostic.listing_ne_empty h)
  | finished h hfinishes => exact .finished (haccepted h) hfinishes
  | failed h hfails =>
    rw [Diagnostic.listing_runtimeError]
    exact .failed (haccepted h) (lineFeed_not_mem_text hfails) hfails

theorem concludes_runFile (path : String) (contents : Except FileError (List UInt8)) :
    Concludes contents (runFile path contents) := by
  cases contents with
  | error e => exact .refused (.unreadable e) (by simp)
  | ok bytes =>
    rw [runFile]
    cases hdecode : Prompt.decode? bytes with
    | none => exact .refused (.undecodable hdecode) (by simp)
    | some source => exact concludes_runSource hdecode path

theorem exit_runPrompt (stdin : List UInt8) : (runPrompt stdin).exit =
    if ∀ line ∈ Prompt.lines stdin, (Prompt.decode? line).isSome then 0 else 1 := by
  obtain ⟨hgood, hbad⟩ := Session.runLines_of_hearsAll (Prompt.lines stdin) (s := start) rfl rfl
  rw [runPrompt, Session.runPrompt]
  by_cases hall : ∀ line ∈ Prompt.lines stdin, (Prompt.decode? line).isSome
  · obtain ⟨s, hrun⟩ := hgood hall
    rw [if_pos hall, hrun]
    rfl
  · obtain ⟨s, hrun⟩ := hbad hall
    rw [if_neg hall, hrun]
    rfl

/-- A source has no program by the grammar exactly if errors are found in it. A command with one
argument has exit code 0, 65 or 70. The code is 0 exactly if nothing is reported. It is 70 exactly
if the file holds a program that fails; what it printed before that is kept, and the failure is
reported on one line. It is 65 exactly if the file is refused, and then nothing is printed. Without
arguments the code is 0 if all lines of the input are UTF-8, and 1 otherwise. -/
theorem run_completion (path : String) (readFile : String → Except FileError (List UInt8))
    (stdin : List UInt8) :
    (∀ source lexical syntactic program, Finds source lexical syntactic program →
      (lexical ≠ [] ∨ syntactic ≠ [] ↔ ∀ program', ¬IsSourceOf source program')) ∧
    (∃ c, run [path] readFile stdin = c ∧ (c.exit = 0 ∨ c.exit = 65 ∨ c.exit = 70) ∧
      (c.exit = 0 ↔ c.stderr = "") ∧
      (c.exit = 70 ↔ ∃ program, IsAccepted (readFile path) program ∧
        ∃ printed e, FailsAfter printed program e) ∧
      (c.exit = 70 → ∃ program e, IsAccepted (readFile path) program ∧
        FailsAfter c.stdout program e ∧ '\n' ∉ e.text.toList ∧ c.stderr = e.text ++ "\n") ∧
      (c.exit = 65 ↔ IsRefused (readFile path)) ∧ (c.exit = 65 → c.stdout = "")) ∧
    ∃ lines, Prompt.Splits stdin lines ∧ (run [] readFile stdin).exit =
      if ∀ line ∈ lines, (Prompt.decode? line).isSome then 0 else 1 := by
  have hfile : Concludes (readFile path) (run [path] readFile stdin) :=
    concludes_runFile path (readFile path)
  exact ⟨fun _ _ _ _ hfinds => hfinds.ne_nil_iff,
    ⟨_, rfl, hfile.exit_cases, hfile.exit_eq_zero_iff, hfile.exit_eq_failed_iff,
      hfile.exists_of_failed, hfile.exit_eq_refused_iff, hfile.stdout_of_refused⟩,
    Prompt.lines stdin, Prompt.splits_lines stdin, exit_runPrompt stdin⟩

end CommandLine

end TreeWalk

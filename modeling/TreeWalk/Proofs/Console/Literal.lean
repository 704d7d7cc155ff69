import TreeWalk.Proofs.Console.Joined
import TreeWalk.Proofs.Console.Output
import TreeWalk.Proofs.Lexis.Rendering
import TreeWalk.Proofs.Text.Numeral

/-! Printing literals. What is written between `print` and a semicolon, a text in quotes or a number
with or without a sign, is what comes out again. -/
namespace TreeWalk

open Grammar

/-- The source that prints an expression. -/
def printing (expression : String) : String := "print " ++ expression ++ ";"

namespace Segment

theorem all_print (cs : List Char) :
    all ("print ".toList ++ cs) =
      ⟨.token (.keyword .printKw), "print".toList⟩ :: ⟨.blank, [' ']⟩ :: all cs := by
  have htext : "print ".toList ++ cs = "print".toList ++ ' ' :: cs := rfl
  have hstop : ∀ x ∈ (' ' :: cs).head?, IsStop x := by
    rintro x ⟨⟩
    decide
  have hword : Spells (.token (.keyword .printKw)) "print".toList := .keyword rfl
  rw [htext, all_append_of_spells hword hstop, all_blank (by simp)]

/-- A minus sign begins no longer symbol. -/
theorem all_minus (cs : List Char) :
    all ('-' :: cs) = ⟨.token (.symbol .minus), ['-']⟩ :: all cs := by
  have hfirst : first '-' cs = (⟨.token (.symbol .minus), ['-']⟩, cs) := by
    cases cs <;> rfl
  rw [all_cons, hfirst]

/-- A token is cut off before a semicolon. -/
theorem all_closed {kind : Token.Kind} {text : List Char} (h : Spells (.token kind) text) :
    all (text ++ [';']) = [⟨.token kind, text⟩] ++ [⟨.token (.symbol .semicolon), [';']⟩] := by
  have hstop : ∀ x ∈ [';'].head?, IsStop x := by
    rintro x ⟨⟩
    decide
  have hsemicolon : Spells (.token (.symbol .semicolon)) [';'] := .symbol rfl
  rw [all_append_of_spells h hstop, all_of_spells hsemicolon, List.singleton_append]

end Segment

/-- An expression that is cut into its tokens before a semicolon is printed by the program. -/
theorem programOf_printing {text : String} {e : Derivation .assignment} (he : e.IsProper)
    {ss : List Segment}
    (hall : Segment.all (text.toList ++ [';']) = ss ++ [⟨.token (.symbol .semicolon), [';']⟩])
    (htokens : Segment.scannedFrom 1 ss = e.tokens.map .token) :
    diagnosticsOf (printing text) = [] ∧ programOf (printing text) = [.print e.tree] := by
  let opening : Terminal (.keyword .printKw) := ⟨⟨.keyword .printKw, "print", 1⟩, rfl⟩
  let closing : Terminal (.symbol .semicolon) :=
    ⟨⟨.symbol .semicolon, ";", 1 + lineFeeds (ss.flatMap Segment.text)⟩, rfl⟩
  let s : Sentence := ⟨[.print opening e closing], ⟨endToken (printing text), rfl⟩⟩
  have hscan : scan (printing text) = (opening.val :: (e.tokens ++ [closing.val])).map .token := by
    have hsemicolon : ";".toList = [';'] := rfl
    rw [scan_eq, printing, String.toList_append, String.toList_append, List.append_assoc,
      Segment.all_print, hsemicolon, hall]
    show .token opening.val :: Segment.scannedFrom 1 (ss ++ _) = _
    rw [Segment.scannedFrom_append, htokens, List.map_cons, List.map_append]
    rfl
  have hproper : s.IsProper := by
    intro d hd
    obtain rfl := List.mem_singleton.1 hd
    exact he
  have hlexical : lexicalErrorsOf (printing text) = [] := by
    rw [lexicalErrorsOf_eq, hscan, List.filterMap_map]
    exact List.filterMap_eq_nil_iff.2 fun _ _ => rfl
  have hinner : tokensOf (printing text) = s.tokens := by
    rw [tokensOf_eq, innerTokensOf, hscan, List.filterMap_map]
    have hsome : Scanned.token? ∘ Scanned.token = some := rfl
    rw [hsome, List.filterMap_some]
    show _ = (opening.val :: (e.tokens ++ [closing.val])) ++ [] ++ [_]
    rw [List.append_nil]
  exact programOf_of_tokensOf hproper hinner hlexical

namespace Grammar.Derivation

theorem tokens_ofUnary (e : Derivation (.tier .unary)) : (ofUnary e).tokens = e.tokens := by
  simp only [ofUnary, tokens, List.append_nil]
  rfl

theorem IsProper.ofUnary {e : Derivation (.tier .unary)} (he : e.IsProper) :
    (ofUnary e).IsProper :=
  ⟨⟨⟨⟨he, trivial⟩, trivial⟩, trivial⟩, trivial⟩

end Grammar.Derivation

/-- Whatever is spelled as a literal is printed as that literal. -/
theorem programOf_literal {text : String} {kind : Token.Kind} {v : Value}
    (hspells : Segment.Spells (.token kind) text.toList) (hv : Denotes kind v) :
    diagnosticsOf (printing text) = [] ∧ programOf (printing text) = [.print (.literal v)] := by
  let literal : Derivation (.tier .unary) := .primary (.literal ⟨kind, text, 1⟩ v hv)
  have hproper : literal.IsProper := by simp [literal, Derivation.IsProper]
  have hall := Segment.all_closed hspells
  refine programOf_printing hproper.ofUnary hall ?_
  rw [Derivation.tokens_ofUnary, Segment.scannedFrom, Segment.scanned?, String.ofList_toList]
  rfl

/-- A literal after a minus sign is printed as its negation. -/
theorem programOf_negated {text : String} {kind : Token.Kind} {v : Value}
    (hspells : Segment.Spells (.token kind) text.toList) (hv : Denotes kind v) :
    diagnosticsOf (printing ("-" ++ text)) = [] ∧
      programOf (printing ("-" ++ text)) =
        [.print (.unary ⟨.symbol .minus, "-", 1⟩ (.literal v))] := by
  let literal : Derivation (.tier .unary) := .primary (.literal ⟨kind, text, 1⟩ v hv)
  let sign : OneOf signs := ⟨⟨.symbol .minus, "-", 1⟩, .minus, by simp [signs], rfl⟩
  have hproper : (Derivation.signed sign literal).IsProper := by
    simp [literal, Derivation.IsProper]
  have hall : Segment.all (("-" ++ text).toList ++ [';']) =
      [⟨.token (.symbol .minus), ['-']⟩, ⟨.token kind, text.toList⟩] ++
        [⟨.token (.symbol .semicolon), [';']⟩] := by
    have htext : ("-" ++ text).toList ++ [';'] = '-' :: (text.toList ++ [';']) := by
      rw [String.toList_append]
      rfl
    rw [htext, Segment.all_minus, Segment.all_closed hspells]
    rfl
  refine programOf_printing hproper.ofUnary hall ?_
  rw [Derivation.tokens_ofUnary, Segment.scannedFrom, Segment.scannedFrom, Segment.scanned?,
    Segment.scanned?, String.ofList_toList]
  rfl

namespace Session

variable {ρ : Type} [Listener ρ]

/-- A program of one expression prints its value, and does nothing else. -/
theorem run_of_print {source : String} {e : Expr} {v : Value}
    (hprogram : diagnosticsOf source = [] ∧ programOf source = [.print e])
    (hvalue : ∀ b, e.eval b = .ok v b) {s : Session ρ} (hs : s.machine.IsUnlimited) :
    run source s = .ok .success (s.withText (s.machine.output.text ++ v.display ++ "\n")) := by
  obtain ⟨⟨bindings, text, room⟩, listener⟩ := s
  obtain rfl : room = none := hs
  have hprint : Machine.print v ⟨bindings, ⟨text, none⟩⟩ =
      .ok () ⟨bindings, ⟨text ++ v.display ++ "\n", none⟩⟩ := by
    rw [Machine.print_of_ok (Sink.write_unlimited _ _), Machine.lineOf, String.append_assoc]
  refine run_of_run_ok hprogram.1 ?_
  rw [hprogram.2, Machine.run_cons, Stmt.exec_print, hvalue]
  simp only [hprint, Machine.run_nil]

/-- With an output that refuses nothing, a text without quotes is printed from between two of them,
and the text of every finite number, its sign included, is printed from itself. Nothing is reported,
and no variable changes. -/
theorem run_print_literal {s : Session ρ} (hs : s.machine.IsUnlimited) :
    (∀ t : String, '"' ∉ t.toList →
      run ("print \"" ++ t ++ "\";") s =
        .ok .success (s.withText (s.machine.output.text ++ t ++ "\n"))) ∧
    ∀ x : Float, x.isFinite →
      run ("print " ++ (Value.number x).display ++ ";") s =
        .ok .success (s.withText (s.machine.output.text ++ (Value.number x).display ++ "\n")) := by
  constructor
  · intro t ht
    have hspells : Segment.Spells (.token (.string t)) ("\"" ++ t ++ "\"").toList := by
      have htext : ("\"" ++ t ++ "\"").toList = '"' :: (t.toList ++ ['"']) := by
        simp
      have hstring := Segment.Spells.string ht
      rwa [String.ofList_toList, ← htext] at hstring
    have hsource : "print \"" ++ t ++ "\";" = printing ("\"" ++ t ++ "\"") := by
      simp [← String.toList_inj, printing]
    rw [hsource]
    exact run_of_print (programOf_literal hspells (.string t)) (fun _ => rfl) hs
  · intro x hx
    have hreads := readsAs_positionalText hx
    generalize htext : (positionalText x).toList = text at hreads
    cases hreads with
    | unsigned h =>
      rw [← htext] at h
      exact run_of_print (programOf_literal h (.number x)) (fun _ => rfl) hs
    | @negated numeral m h =>
      have hsource : positionalText (-m) = "-" ++ String.ofList numeral := by
        rw [← String.toList_inj, htext]
        simp
      have hspells : Segment.Spells (.token (.number m)) (String.ofList numeral).toList := by
        rwa [String.toList_ofList]
      have hprogram := programOf_negated hspells (.number m)
      rw [← hsource] at hprogram
      exact run_of_print hprogram (fun _ => rfl) hs

/-- A text that looks like a comment and goes over two lines, and the negative zero. -/
theorem run_print_literal_comment :
    run "print \"// a\n/* b\";" ⟨{}, ([] : List Report)⟩ =
        .ok .success ⟨⟨{}, ⟨"// a\n/* b\n", none⟩⟩, []⟩ ∧
      run "print -0;" ⟨{}, ([] : List Report)⟩ = .ok .success ⟨⟨{}, ⟨"-0\n", none⟩⟩, []⟩ := by
  obtain ⟨htext, hnumber⟩ := run_print_literal (s := ⟨{}, ([] : List Report)⟩) rfl
  have hzero : (Value.number (-0.0)).display = "-0" := by decide +kernel
  have hnegative := hnumber (-0.0) (by decide +kernel)
  rw [hzero] at hnegative
  exact ⟨htext "// a\n/* b" (by decide), hnegative⟩

end Session

end TreeWalk

import TreeWalk.Lexis.Token

/-! What reading the front of a token list gives: a result, errors noted on the way that did not
stop it, and the tokens left. -/
namespace TreeWalk

inductive SyntaxError.Cause
  | missingExpression
  | unclosedGrouping
  | invalidTarget
  | missingName
  | missingDoubleColon
  | missingType
  | unfinishedDeclaration
  | unfinishedPrint
  | unfinishedExpression
deriving DecidableEq

/-- A token that does not fit, or none where one is needed. -/
inductive SyntaxError
  | atToken (token : Token) (cause : SyntaxError.Cause)
  | endOfInput
deriving DecidableEq

def SyntaxError.Cause.message : SyntaxError.Cause → String
  | missingExpression => "Expect expression."
  | unclosedGrouping => "Expect ')' after expression."
  | invalidTarget => "Invalid assignment target."
  | missingName => "Expect variable name."
  | missingDoubleColon => "Expect '::' after variable name."
  | missingType => "Expect type annotation for variable."
  | unfinishedDeclaration => "Expect ';' after variable declaration."
  | unfinishedPrint => "Expect ';' after value."
  | unfinishedExpression => "Expect ';' after expression."

def SyntaxError.message : SyntaxError → String
  | atToken _ cause => cause.message
  | endOfInput => "Unexpected end of input."

/-- An offending token is left in place, at the head of `rest`. -/
structure Reading (α : Type) where
  notes : List SyntaxError
  result : Except SyntaxError α
  rest : List Token

namespace Reading

variable {α β : Type} {ts us : List Token}

def done (a : α) (rest : List Token) : Reading α := ⟨[], .ok a, rest⟩

def fail (cause : SyntaxError.Cause) : List Token → Reading α
  | [] => ⟨[], .error .endOfInput, []⟩
  | t :: ts => ⟨[], .error (.atToken t cause), t :: ts⟩

/-- Goes on from a result with the tokens left, and keeps the notes of both parts. -/
def bind (r : Reading α) (f : α → List Token → Reading β) : Reading β :=
  match r.result with
  | .error e => ⟨r.notes, .error e, r.rest⟩
  | .ok a => ⟨r.notes ++ (f a r.rest).notes, (f a r.rest).result, (f a r.rest).rest⟩

/-- The next token, if it is of the given kind. -/
def expect (kind : Token.Kind) (cause : SyntaxError.Cause) : List Token → Reading Token
  | [] => fail cause []
  | t :: ts => if t.kind = kind then done t ts else fail cause (t :: ts)

@[simp] theorem rest_fail (cause : SyntaxError.Cause) (ts : List Token) :
    (fail cause ts : Reading α).rest = ts := by cases ts <;> rfl

@[simp] theorem notes_fail (cause : SyntaxError.Cause) (ts : List Token) :
    (fail cause ts : Reading α).notes = [] := by cases ts <;> rfl

@[simp] theorem result_fail_ne_ok (cause : SyntaxError.Cause) (ts : List Token) (a : α) :
    (fail cause ts).result ≠ .ok a := by cases ts <;> simp [fail]

@[simp] theorem done_bind (a : α) (ts : List Token) (f : α → List Token → Reading β) :
    (done a ts).bind f = f a ts := rfl

@[simp] theorem fail_bind (cause : SyntaxError.Cause) (ts : List Token)
    (f : α → List Token → Reading β) : (fail cause ts).bind f = fail cause ts := by
  cases ts <;> rfl

/-- Reading leaves a suffix of what it was given, and a shorter one where it succeeds. -/
def Advances (ts : List Token) (r : Reading α) : Prop :=
  r.rest <:+ ts ∧ ∀ a, r.result = .ok a → r.rest.length < ts.length

theorem advances_fail (cause : SyntaxError.Cause) (ts : List Token) :
    (fail cause ts : Reading α).Advances ts :=
  ⟨by simp, fun a h => absurd h (result_fail_ne_ok cause ts a)⟩

theorem advances_done_cons (a : α) (t : Token) (ts : List Token) :
    (done a ts).Advances (t :: ts) :=
  ⟨List.suffix_cons t ts, fun _ _ => Nat.lt_succ_self _⟩

theorem Advances.bind {r : Reading α} {f : α → List Token → Reading β} (hr : r.Advances ts)
    (hf : ∀ a, r.result = .ok a → (f a r.rest).rest <:+ r.rest) : (r.bind f).Advances ts := by
  unfold Reading.bind
  cases h : r.result with
  | error e => exact ⟨hr.1, fun _ h => nomatch h⟩
  | ok a =>
    exact ⟨(hf a h).trans hr.1, fun _ _ => Nat.lt_of_le_of_lt (hf a h).length_le (hr.2 a h)⟩

theorem rest_bind_suffix {r : Reading α} {f : α → List Token → Reading β} (hr : r.rest <:+ ts)
    (hf : ∀ a, (f a r.rest).rest <:+ r.rest) : (r.bind f).rest <:+ ts := by
  unfold Reading.bind
  split
  · exact hr
  · exact (hf _).trans hr

theorem Advances.of_suffix {r : Reading α} (hr : r.Advances ts) (h : ts <:+ us) :
    r.Advances us :=
  ⟨hr.1.trans h, fun a ha => Nat.lt_of_lt_of_le (hr.2 a ha) h.length_le⟩

theorem advances_expect (kind : Token.Kind) (cause : SyntaxError.Cause) (ts : List Token) :
    (expect kind cause ts).Advances ts := by
  cases ts with
  | nil => exact advances_fail cause []
  | cons t ts =>
    rw [expect]
    split
    · exact advances_done_cons t t ts
    · exact advances_fail cause (t :: ts)

/-- Goes on as `bind` does; what follows may rely on having fewer tokens. -/
def andThen (r : { r : Reading α // r.Advances ts })
    (f : α → (us : List Token) → us.length < ts.length → { s : Reading β // s.rest <:+ us }) :
    { s : Reading β // s.Advances ts } :=
  match h : r.val.result with
  | .error e => ⟨⟨r.val.notes, .error e, r.val.rest⟩, r.property.1, fun _ h => nomatch h⟩
  | .ok a =>
    let s := f a r.val.rest (r.property.2 a h)
    ⟨⟨r.val.notes ++ s.val.notes, s.val.result, s.val.rest⟩, s.property.trans r.property.1,
      fun _ _ => Nat.lt_of_le_of_lt s.property.length_le (r.property.2 a h)⟩

theorem val_andThen (r : { r : Reading α // r.Advances ts })
    {f : α → (us : List Token) → us.length < ts.length → { s : Reading β // s.rest <:+ us }}
    {g : α → List Token → Reading β} (h : ∀ a us hus, (f a us hus).val = g a us) :
    (andThen r f).val = r.val.bind g := by
  unfold andThen bind
  split <;> rename_i hr <;> simp [hr, h]

end Reading

end TreeWalk

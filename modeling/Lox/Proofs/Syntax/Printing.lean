import Lox.Proofs.Numbers.Spelling
import Lox.Proofs.Syntax.Parts
import Lox.Proofs.Syntax.Phrases

/-!
# The text of a tree as a phrase

The text of a tree is that of a phrase: a name or a literal is a word, and every other node is a
list with a word at its head. The head says what the node is, except that signs and operators share
theirs, which the number of items tells apart. In a legible tree all tokens belong where they are
and the literals are told by their texts.
-/
namespace Lox

open Token (isWordStart isWordPart wordKind)

/-- A literal whose text is that of no other one: no string, and no infinity. -/
def Literal.Plain : Literal → Prop
  | .number x => Number.IsFinite x
  | .string _ => False
  | _ => True

/-- All literals in a tree are plain. -/
def Node.Plain (n : Node) : Prop := ∀ v, n.Within (.expression (.literal v)) → v.Plain

/-- A node that is told by its text. -/
def Node.Legible : Node → Prop
  | .expression (.literal v) => v.Plain
  | n => n.Fits

theorem Node.legible {n : Node} (hfits : n.Everywhere Fits) (hplain : n.Plain) :
    n.Everywhere Legible := by
  intro p hp
  unfold Legible
  split
  · exact hplain _ hp
  · exact hfits p hp

abbrev Expr.Legible (e : Expr) : Prop := (Node.expression e).Everywhere Node.Legible

abbrev Statement.Legible (s : Statement) : Prop := (Node.statement s).Everywhere Node.Legible

/-- A list with a word at its head. -/
def Phrase.headed (head : String) (items : List Phrase) : Phrase :=
  .list (.word head.toList :: items)

def functionPhrase (name : String) (parameters : List Token) (body : List Phrase) : Phrase :=
  .headed "fun" (.word name.toList :: .list (parameters.map fun t => .word t.lexeme.toList) :: body)

mutual

/-- What the text of an expression says. -/
def Expr.phrase : Expr → Phrase
  | .literal value => .word value.text.toList
  | .grouping inner => .headed "group" [inner.phrase]
  | .unary operator operand => .headed operator.lexeme [operand.phrase]
  | .binary left operator right => .headed operator.lexeme [left.phrase, right.phrase]
  | .logical left operator right => .headed operator.lexeme [left.phrase, right.phrase]
  | .ternary condition thenBranch elseBranch =>
    .headed "?:" [condition.phrase, thenBranch.phrase, elseBranch.phrase]
  | .access _ name => .word name.lexeme.toList
  | .assign _ name value => .headed "=" [.word name.lexeme.toList, value.phrase]
  | .call callee _ arguments => .headed "call" (callee.phrase :: Expr.phrases arguments)
  | .function _ parameters body => functionPhrase "anonymous" parameters (Statement.phrases body)

def Expr.phrases : List Expr → List Phrase
  | [] => []
  | e :: rest => e.phrase :: Expr.phrases rest

/-- What the text of a statement says. -/
def Statement.phrase : Statement → Phrase
  | .block statements => .headed "block" (Statement.phrases statements)
  | .expression value => .headed "expr" [value.phrase]
  | .function name parameters body =>
    functionPhrase name.lexeme parameters (Statement.phrases body)
  | .ifElse condition thenBranch none => .headed "if" [condition.phrase, thenBranch.phrase]
  | .ifElse condition thenBranch (some elseBranch) =>
    .headed "if" [condition.phrase, thenBranch.phrase, elseBranch.phrase]
  | .print value => .headed "print" [value.phrase]
  | .return _ none => .headed "return" []
  | .return _ (some value) => .headed "return" [value.phrase]
  | .var name none => .headed "var" [.word name.lexeme.toList]
  | .var name (some initializer) =>
    .headed "var" [.word name.lexeme.toList, initializer.phrase]
  | .while condition body => .headed "while" [condition.phrase, body.phrase]

def Statement.phrases : List Statement → List Phrase
  | [] => []
  | s :: rest => s.phrase :: Statement.phrases rest

end

theorem functionPhrase_inj {name name' : String} {names names' : List Token}
    {body body' : List Phrase}
    (h : functionPhrase name names body = functionPhrase name' names' body') :
    name = name' ∧ names.map (fun t => Phrase.word t.lexeme.toList) =
      names'.map (fun t => Phrase.word t.lexeme.toList) ∧ body = body' := by
  simpa [functionPhrase, Phrase.headed, String.toList_inj] using h

theorem toList_parenthesized {head : String} {parts : List String} {items : List Phrase}
    (h : parts.map String.toList = Phrase.allChars items) :
    (parenthesized head parts).toList = (Phrase.headed head items).chars := by
  simp [parenthesized, Phrase.headed, Phrase.chars, Phrase.allChars, h]

theorem allChars_names (names : List Token) :
    Phrase.allChars (names.map fun t => .word t.lexeme.toList) =
      (names.map (·.lexeme)).map String.toList := by
  induction names with
  | nil => rfl
  | cons t names ih => simp [Phrase.allChars, Phrase.chars, ih]

theorem toList_functionText {name : String} {parameters : List Token} {body : List String}
    {items : List Phrase} (h : body.map String.toList = Phrase.allChars items) :
    (functionText name parameters body).toList =
      (functionPhrase name parameters items).chars := by
  refine toList_parenthesized ?_
  simp [Phrase.allChars, Phrase.chars, allChars_names, h]

mutual

/-- The text of an expression is that of its phrase. -/
theorem Expr.toList_text : (e : Expr) → e.text.toList = e.phrase.chars
  | .literal _ => rfl
  | .grouping inner => toList_parenthesized (by simp [Phrase.allChars, inner.toList_text])
  | .unary _ operand => toList_parenthesized (by simp [Phrase.allChars, operand.toList_text])
  | .binary left _ right | .logical left _ right =>
    toList_parenthesized (by simp [Phrase.allChars, left.toList_text, right.toList_text])
  | .ternary condition thenBranch elseBranch => toList_parenthesized (by
      simp [Phrase.allChars, condition.toList_text, thenBranch.toList_text,
        elseBranch.toList_text])
  | .access _ _ => rfl
  | .assign _ name value =>
    toList_parenthesized (by simp [Phrase.allChars, Phrase.chars, value.toList_text])
  | .call callee _ arguments => toList_parenthesized (by
      simp [Phrase.allChars, callee.toList_text, Expr.toList_texts arguments])
  | .function _ _ body => toList_functionText (Statement.toList_texts body)

theorem Expr.toList_texts : (es : List Expr) →
    (Expr.texts es).map String.toList = Phrase.allChars (Expr.phrases es)
  | [] => rfl
  | e :: rest => by
    simp [Expr.texts, Expr.phrases, Phrase.allChars, e.toList_text, Expr.toList_texts rest]

/-- The text of a statement is that of its phrase. -/
theorem Statement.toList_text : (s : Statement) → s.text.toList = s.phrase.chars
  | .block statements => toList_parenthesized (Statement.toList_texts statements)
  | .expression value => toList_parenthesized (by simp [Phrase.allChars, value.toList_text])
  | .function _ _ body => toList_functionText (Statement.toList_texts body)
  | .ifElse condition thenBranch none => toList_parenthesized (by
      simp [Phrase.allChars, condition.toList_text, thenBranch.toList_text])
  | .ifElse condition thenBranch (some elseBranch) => toList_parenthesized (by
      simp [Phrase.allChars, condition.toList_text, thenBranch.toList_text,
        elseBranch.toList_text])
  | .print value => toList_parenthesized (by simp [Phrase.allChars, value.toList_text])
  | .return _ none => by simp [Statement.text, Statement.phrase, Phrase.headed, Phrase.chars,
      Phrase.allChars]
  | .return _ (some value) => toList_parenthesized (by simp [Phrase.allChars, value.toList_text])
  | .var _ none => toList_parenthesized rfl
  | .var _ (some initializer) =>
    toList_parenthesized (by simp [Phrase.allChars, Phrase.chars, initializer.toList_text])
  | .while condition body =>
    toList_parenthesized (by simp [Phrase.allChars, condition.toList_text, body.toList_text])

theorem Statement.toList_texts : (ss : List Statement) →
    (Statement.texts ss).map String.toList = Phrase.allChars (Statement.phrases ss)
  | [] => rfl
  | s :: rest => by
    simp [Statement.texts, Statement.phrases, Phrase.allChars, s.toList_text,
      Statement.toList_texts rest]

end

section
variable {c : Char} {v v' : Literal} {t u : Token} {kinds : List Token.Kind}

open Phrase (IsWord isDelimiter)

theorem isDelimiter_eq_false {p : Char → Bool} (hp : [' ', '(', ')', '\n'].any p = false)
    (h : p c = true) : isDelimiter c = false := by
  have hne (d : Char) (hd : d ∈ [' ', '(', ')', '\n']) : c ≠ d := by
    rintro rfl
    exact List.any_eq_false.1 hp c hd h
  simp [isDelimiter, hne]

theorem isWord_name (h : t.Fits [.identifier]) : IsWord t.lexeme.toList := by
  have hkind : t.kind = .identifier := by simpa using h.kind
  obtain ⟨⟨⟨c, rest, hcons, -⟩, hparts⟩, -⟩ := (hkind ▸ h.lexeme).name
  exact ⟨by simp [hcons], fun c hc => isDelimiter_eq_false (by decide) (hparts c hc)⟩

theorem Literal.Plain.isWord (h : v.Plain) : IsWord v.text.toList := by
  match v, h with
  | .nil, _ | .bool true, _ | .bool false, _ => decide
  | .number x, h =>
    obtain ⟨c, rest, hcons, -⟩ := Number.head_literal h
    refine ⟨by simp [Literal.text, hcons], fun d hd => ?_⟩
    exact isDelimiter_eq_false (by decide) (Number.isNumeral_literal h d hd)

/-- The lexemes of signs and of operators that evaluate both operands. -/
def operatorLexemes : List String := ["!", "-", "!=", "==", ">", ">=", "<", "<=", "+", "/", "*"]

theorem mem_operatorLexemes (h : t.Fits kinds)
    (hkinds : ∀ kind ∈ kinds, ∃ s ∈ operatorLexemes, kind.lexeme? = some s) :
    t.lexeme ∈ operatorLexemes := h.lexeme_mem hkinds

theorem isWord_operator (h : t.lexeme ∈ operatorLexemes) : IsWord t.lexeme.toList := by
  have hwords : ∀ s ∈ operatorLexemes, IsWord s.toList := by decide
  exact hwords _ h

theorem lexeme_logical (h : t.Fits Grammar.Level.logicalOperators) : t.lexeme ∈ ["or", "and"] :=
  h.lexeme_mem (by decide)

theorem isWord_logical (h : t.lexeme ∈ ["or", "and"]) : IsWord t.lexeme.toList := by
  have hwords : ∀ s ∈ ["or", "and"], IsWord s.toList := by decide
  exact hwords _ h

/-- Nothing but a name begins with a letter and is not reserved. -/
def isNameText (letters : List Char) : Bool :=
  wordKind (String.ofList letters) = .identifier && letters.head?.any isWordStart

theorem isNameText_name (h : t.Fits [.identifier]) : isNameText t.lexeme.toList = true := by
  have hkind : t.kind = .identifier := by simpa using h.kind
  obtain ⟨⟨⟨c, rest, hcons, hc⟩, -⟩, hword⟩ := (hkind ▸ h.lexeme).name
  rw [isNameText, hword, hcons]
  simpa using hc

theorem isNameText_literal (h : v.Plain) : isNameText v.text.toList = false := by
  match v, h with
  | .nil, _ | .bool true, _ | .bool false, _ => decide
  | .number x, h =>
    obtain ⟨c, rest, hcons, hc⟩ := Number.head_literal h
    have hstart : isWordStart c = false := by
      rcases hc with hdigit | rfl
      · exact (Token.of_isDigit hdigit).2.2.2.2.2
      · decide
    simp [isNameText, Literal.text, hcons, hstart]

end

/-- The constructor of an expression. -/
inductive Expr.Form where
  | literal | grouping | unary | binary | logical | ternary | access | assign | call | function
  deriving DecidableEq

def Expr.form : Expr → Expr.Form
  | .literal _ => .literal
  | .grouping _ => .grouping
  | .unary _ _ => .unary
  | .binary _ _ _ => .binary
  | .logical _ _ _ => .logical
  | .ternary _ _ _ => .ternary
  | .access _ _ => .access
  | .assign _ _ _ => .assign
  | .call _ _ _ => .call
  | .function _ _ _ => .function

/-- The constructor that a head calls for, with so many items behind it. -/
def Phrase.formOf (head : String) (items : Nat) : Expr.Form :=
  if head = "group" then .grouping
  else if head = "?:" then .ternary
  else if head = "=" then .assign
  else if head = "call" then .call
  else if head = "fun" then .function
  else if head ∈ ["or", "and"] then .logical
  else if items = 1 then .unary
  else .binary

/-- The constructor of the expressions that say this. -/
def Phrase.form : Phrase → Expr.Form
  | .word letters => if isNameText letters then .access else .literal
  | .list (.word head :: items) => Phrase.formOf (String.ofList head) items.length
  | .list _ => .literal

theorem formOf_operator {head : String} (h : head ∈ operatorLexemes) (n : Nat) :
    Phrase.formOf head n = if n = 1 then .unary else .binary := by
  have hheads : ∀ head ∈ operatorLexemes, head ∉ ["group", "?:", "=", "call", "fun", "or", "and"] :=
    by decide
  have hnot := hheads head h
  simp only [List.mem_cons, List.not_mem_nil, or_false, not_or] at hnot
  simp [Phrase.formOf, hnot]

theorem formOf_logical {head : String} (h : head ∈ ["or", "and"]) (n : Nat) :
    Phrase.formOf head n = .logical := by
  simp only [List.mem_cons, List.not_mem_nil, or_false] at h
  rcases h with rfl | rfl <;> simp [Phrase.formOf]

/-- A phrase tells the constructor of a legible expression. -/
theorem Expr.form_phrase {e : Expr} (h : e.Legible) : e.phrase.form = e.form := by
  have hhere := h.here
  cases e with
  | literal v => simp [Expr.phrase, Phrase.form, Expr.form, isNameText_literal hhere]
  | access _ name => simp [Expr.phrase, Phrase.form, Expr.form, isNameText_name hhere]
  | unary operator _ =>
    have hmem := mem_operatorLexemes hhere (by decide)
    simp [Expr.phrase, Phrase.headed, Phrase.form, Expr.form, formOf_operator hmem]
  | binary _ operator _ =>
    have hmem := mem_operatorLexemes hhere (by decide)
    simp [Expr.phrase, Phrase.headed, Phrase.form, Expr.form, formOf_operator hmem]
  | logical _ operator _ =>
    simp [Expr.phrase, Phrase.headed, Phrase.form, Expr.form, formOf_logical (lexeme_logical hhere)]
  | _ => simp [Expr.phrase, functionPhrase, Phrase.headed, Phrase.form, Phrase.formOf, Expr.form]

theorem Expr.form_eq {e e' : Expr} (h : e.Legible) (h' : e'.Legible)
    (heq : e.phrase = e'.phrase) : e.form = e'.form := by
  rw [← form_phrase h, heq, form_phrase h']

/-- The word at the head of a statement. -/
def Statement.head : Statement → String
  | .block _ => "block"
  | .expression _ => "expr"
  | .function _ _ _ => "fun"
  | .ifElse _ _ _ => "if"
  | .print _ => "print"
  | .return _ _ => "return"
  | .var _ _ => "var"
  | .while _ _ => "while"

theorem Statement.phrase_eq_headed (s : Statement) :
    ∃ items, s.phrase = .headed s.head items := by
  cases s with
  | ifElse _ _ elseBranch => cases elseBranch <;> exact ⟨_, rfl⟩
  | «return» _ value => cases value <;> exact ⟨_, rfl⟩
  | var _ initializer => cases initializer <;> exact ⟨_, rfl⟩
  | _ => exact ⟨_, rfl⟩

theorem Statement.head_eq {s s' : Statement} (h : s.phrase = s'.phrase) : s.head = s'.head := by
  obtain ⟨items, hitems⟩ := s.phrase_eq_headed
  obtain ⟨items', hitems'⟩ := s'.phrase_eq_headed
  rw [hitems, hitems'] at h
  simp only [Phrase.headed, Phrase.list.injEq, List.cons.injEq, Phrase.word.injEq,
    String.toList_inj] at h
  exact h.1

section
variable {head : String} {items : List Phrase} {names : List Token}

/-- The heads of all nodes but those with an operator. -/
def Phrase.keywords : List String :=
  ["group", "?:", "=", "call", "fun", "block", "expr", "if", "print", "return", "var", "while"]

theorem Phrase.wordy_keyword (hhead : head ∈ keywords) (h : AllWordy items) :
    (headed head items).Wordy := by
  have hwords : ∀ s ∈ keywords, IsWord s.toList := by decide
  exact ⟨hwords _ hhead, h⟩

theorem wordy_names (h : ∀ t ∈ names, t.Fits [.identifier]) :
    Phrase.AllWordy (names.map fun t => .word t.lexeme.toList) := by
  induction names with
  | nil => trivial
  | cons t names ih =>
    obtain ⟨ht, hnames⟩ := List.forall_mem_cons.1 h
    exact ⟨isWord_name ht, ih hnames⟩

theorem wordy_functionPhrase {name : String} (hname : Phrase.IsWord name.toList)
    (hnames : ∀ t ∈ names, t.Fits [.identifier]) (h : Phrase.AllWordy items) :
    (functionPhrase name names items).Wordy :=
  Phrase.wordy_keyword (by decide) ⟨hname, wordy_names hnames, h⟩

end

mutual

theorem Expr.wordy_phrase : (e : Expr) → e.Legible → e.phrase.Wordy
  | .literal _, h => Literal.Plain.isWord h.here
  | .grouping inner, h =>
    Phrase.wordy_keyword (by decide) ⟨inner.wordy_phrase (h.part .grouping), trivial⟩
  | .unary _ operand, h =>
    ⟨isWord_operator (mem_operatorLexemes h.here (by decide)),
      operand.wordy_phrase (h.part .operand), trivial⟩
  | .binary left _ right, h =>
    ⟨isWord_operator (mem_operatorLexemes h.here (by decide)),
      left.wordy_phrase (h.part .binaryLeft), right.wordy_phrase (h.part .binaryRight), trivial⟩
  | .logical left _ right, h =>
    ⟨isWord_logical (lexeme_logical h.here), left.wordy_phrase (h.part .logicalLeft),
      right.wordy_phrase (h.part .logicalRight), trivial⟩
  | .ternary condition thenBranch elseBranch, h =>
    Phrase.wordy_keyword (by decide) ⟨condition.wordy_phrase (h.part .ternaryCondition),
      thenBranch.wordy_phrase (h.part .ternaryThen), elseBranch.wordy_phrase (h.part .ternaryElse),
      trivial⟩
  | .access _ _, h => isWord_name h.here
  | .assign _ _ value, h =>
    Phrase.wordy_keyword (by decide)
      ⟨isWord_name h.here, value.wordy_phrase (h.part .assigned), trivial⟩
  | .call callee _ arguments, h =>
    Phrase.wordy_keyword (by decide) ⟨callee.wordy_phrase (h.part .callee),
      Expr.wordy_phrases arguments fun _ he => h.part (.argument he)⟩
  | .function _ _ body, h =>
    wordy_functionPhrase (by decide) h.here.2
      (Statement.wordy_phrases body fun _ hs => h.part (.literalBody hs))

theorem Expr.wordy_phrases : (es : List Expr) → (∀ e ∈ es, e.Legible) →
    Phrase.AllWordy (Expr.phrases es)
  | [], _ => trivial
  | e :: rest, h => ⟨e.wordy_phrase (List.forall_mem_cons.1 h).1,
      Expr.wordy_phrases rest (List.forall_mem_cons.1 h).2⟩

theorem Statement.wordy_phrase : (s : Statement) → s.Legible → s.phrase.Wordy
  | .block statements, h =>
    Phrase.wordy_keyword (by decide)
      (Statement.wordy_phrases statements fun _ hs => h.part (.blockBody hs))
  | .expression value, h =>
    Phrase.wordy_keyword (by decide) ⟨value.wordy_phrase (h.part .value), trivial⟩
  | .function _ _ body, h =>
    wordy_functionPhrase (isWord_name h.here.1) h.here.2
      (Statement.wordy_phrases body fun _ hs => h.part (.functionBody hs))
  | .ifElse condition thenBranch none, h =>
    Phrase.wordy_keyword (by decide) ⟨condition.wordy_phrase (h.part .ifCondition),
      thenBranch.wordy_phrase (h.part .thenBranch), trivial⟩
  | .ifElse condition thenBranch (some elseBranch), h =>
    Phrase.wordy_keyword (by decide) ⟨condition.wordy_phrase (h.part .ifCondition),
      thenBranch.wordy_phrase (h.part .thenBranch), elseBranch.wordy_phrase (h.part .elseBranch),
      trivial⟩
  | .print value, h =>
    Phrase.wordy_keyword (by decide) ⟨value.wordy_phrase (h.part .printed), trivial⟩
  | .return _ none, _ => Phrase.wordy_keyword (by decide) trivial
  | .return _ (some value), h =>
    Phrase.wordy_keyword (by decide) ⟨value.wordy_phrase (h.part .returned), trivial⟩
  | .var _ none, h => Phrase.wordy_keyword (by decide) ⟨isWord_name h.here, trivial⟩
  | .var _ (some initializer), h =>
    Phrase.wordy_keyword (by decide)
      ⟨isWord_name h.here, initializer.wordy_phrase (h.part .initializer), trivial⟩
  | .while condition body, h =>
    Phrase.wordy_keyword (by decide) ⟨condition.wordy_phrase (h.part .loopCondition),
      body.wordy_phrase (h.part .loopBody), trivial⟩

theorem Statement.wordy_phrases : (ss : List Statement) → (∀ s ∈ ss, s.Legible) →
    Phrase.AllWordy (Statement.phrases ss)
  | [], _ => trivial
  | s :: rest, h => ⟨s.wordy_phrase (List.forall_mem_cons.1 h).1,
      Statement.wordy_phrases rest (List.forall_mem_cons.1 h).2⟩

end

end Lox

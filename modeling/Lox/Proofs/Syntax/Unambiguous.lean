import Lox.CommandLine
import Lox.Proofs.Grammar.Fitting
import Lox.Proofs.Syntax.Printing
import Lox.Proofs.Syntax.Relabelling

/-!
# The text of a tree tells the tree

A legible tree is told by its phrase, up to its labels, and so by its text. What is read of a source
is legible if it has neither strings nor infinities: so texts tell what was read.
-/
namespace Lox

open Token (isWordStart)

/-- All labels the same. -/
def Relabelling.blank : Relabelling := ⟨fun _ => 0, fun _ => 0⟩

theorem Relabelling.site_blank (site : Site) : Relabelling.blank.site site = 0 := rfl

section
variable {t u : Token} {kinds kinds' : List Token.Kind} {v v' : Literal} {names names' : List Token}

/-- A lexeme tells its token, up to the line. -/
theorem relabel_token (ht : t.Fits kinds) (hu : u.Fits kinds') (h : t.lexeme = u.lexeme) :
    t.relabel .blank = u.relabel .blank := by
  obtain ⟨hkind, hliteral⟩ := ht.lexeme.unique (h ▸ hu.lexeme)
  simp [Token.relabel, Relabelling.blank, hkind, h, hliteral]

/-- Tokens of a kind with one lexeme differ in their lines at most. -/
theorem relabel_fixed {kind : Token.Kind} {s : String} (hs : kind.lexeme? = some s)
    (ht : t.Fits [kind]) (hu : u.Fits [kind]) : t.relabel .blank = u.relabel .blank := by
  have hlexeme {t : Token} (h : t.Fits [kind]) : t.lexeme = s :=
    List.mem_singleton.1 (h.lexeme_mem (by simpa using hs))
  exact relabel_token ht hu ((hlexeme ht).trans (hlexeme hu).symm)

theorem relabel_names (ht : ∀ t ∈ names, t.Fits [.identifier])
    (hu : ∀ t ∈ names', t.Fits [.identifier])
    (h : names.map (fun t => Phrase.word t.lexeme.toList) =
      names'.map fun t => .word t.lexeme.toList) :
    names.map (Token.relabel .blank) = names'.map (Token.relabel .blank) := by
  induction names generalizing names' with
  | nil =>
    rw [List.map_eq_nil_iff.1 h.symm]
  | cons t names ih =>
    cases names' with
    | nil => simp at h
    | cons u names' =>
      simp only [List.map_cons, List.cons.injEq, Phrase.word.injEq, String.toList_inj] at h
      obtain ⟨ht, hnames⟩ := List.forall_mem_cons.1 ht
      obtain ⟨hu, hnames'⟩ := List.forall_mem_cons.1 hu
      rw [List.map_cons, List.map_cons, relabel_token ht hu h.1, ih hnames hnames' h.2]

/-- A text tells a plain literal. -/
theorem Literal.Plain.text_inj (hv : v.Plain) (hv' : v'.Plain) (h : v.text = v'.text) : v = v' := by
  -- No number begins with a letter, and every other constant does.
  have hnumber {x : Float} (hx : Number.IsFinite x) {s : String}
      (hs : s.toList.head?.any isWordStart = true) : Number.literal x ≠ s := by
    rintro rfl
    obtain ⟨c, rest, hcons, hc⟩ := Number.head_literal hx
    rw [hcons] at hs
    rcases hc with hdigit | rfl
    · exact absurd ((Token.of_isDigit hdigit).2.2.2.2.2.symm.trans hs) Bool.false_ne_true
    · cases hs
  have hbool (b : Bool) : (Literal.bool b).text.toList.head?.any isWordStart = true := by
    cases b <;> decide
  match v, v', hv, hv', h with
  | .number x, .number y, hx, hy, h => rw [Number.literal_inj hx hy h]
  | .number x, .nil, hx, _, h => exact absurd h (hnumber hx (by decide))
  | .number x, .bool b, hx, _, h => exact absurd h (hnumber hx (hbool b))
  | .nil, .number x, _, hx, h => exact absurd h.symm (hnumber hx (by decide))
  | .bool b, .number x, _, hx, h => exact absurd h.symm (hnumber hx (hbool b))
  | .nil, .nil, _, _, _ => rfl
  | .nil, .bool b, _, _, h | .bool b, .nil, _, _, h =>
    cases b <;> exact absurd h (by decide)
  | .bool b, .bool b', _, _, h =>
    cases b <;> cases b' <;> first | rfl | exact absurd h (by decide)

end

section

attribute [local simp] Expr.phrase Expr.phrases Statement.phrase Statement.phrases Phrase.headed
  Expr.relabel Expr.relabelAll Statement.relabel Statement.relabelAll
  String.toList_inj

mutual

/-- Legible expressions that say the same differ in their labels at most. -/
theorem Expr.relabel_eq : (e e' : Expr) → e.Legible → e'.Legible → e.phrase = e'.phrase →
    e.relabel .blank = e'.relabel .blank
  | .literal v, e', h, h', heq => by
    -- Here and below, the phrase first tells the constructor of the other expression.
    have hform : Expr.Form.literal = e'.form := Expr.form_eq h h' heq
    cases e' with
    | literal v' =>
      have htext : v.text = v'.text := by simpa using heq
      rw [Literal.Plain.text_inj h.here h'.here htext]
    | _ => cases hform
  | .grouping inner, e', h, h', heq => by
    have hform : Expr.Form.grouping = e'.form := Expr.form_eq h h' heq
    cases e' with
    | grouping inner' =>
      have hinner : inner.phrase = inner'.phrase := by simpa using heq
      simp [inner.relabel_eq inner' (h.part .grouping) (h'.part .grouping) hinner]
    | _ => cases hform
  | .unary operator operand, e', h, h', heq => by
    have hform : Expr.Form.unary = e'.form := Expr.form_eq h h' heq
    cases e' with
    | unary operator' operand' =>
      obtain ⟨hoperator, hoperand⟩ :
          operator.lexeme = operator'.lexeme ∧ operand.phrase = operand'.phrase := by
        simpa using heq
      simp [relabel_token h.here h'.here hoperator,
        operand.relabel_eq operand' (h.part .operand) (h'.part .operand) hoperand]
    | _ => cases hform
  | .binary left operator right, e', h, h', heq => by
    have hform : Expr.Form.binary = e'.form := Expr.form_eq h h' heq
    cases e' with
    | binary left' operator' right' =>
      obtain ⟨hoperator, hleft, hright⟩ : operator.lexeme = operator'.lexeme ∧
          left.phrase = left'.phrase ∧ right.phrase = right'.phrase := by simpa using heq
      simp [relabel_token h.here h'.here hoperator,
        left.relabel_eq left' (h.part .binaryLeft) (h'.part .binaryLeft) hleft,
        right.relabel_eq right' (h.part .binaryRight) (h'.part .binaryRight) hright]
    | _ => cases hform
  | .logical left operator right, e', h, h', heq => by
    have hform : Expr.Form.logical = e'.form := Expr.form_eq h h' heq
    cases e' with
    | logical left' operator' right' =>
      obtain ⟨hoperator, hleft, hright⟩ : operator.lexeme = operator'.lexeme ∧
          left.phrase = left'.phrase ∧ right.phrase = right'.phrase := by simpa using heq
      simp [relabel_token h.here h'.here hoperator,
        left.relabel_eq left' (h.part .logicalLeft) (h'.part .logicalLeft) hleft,
        right.relabel_eq right' (h.part .logicalRight) (h'.part .logicalRight) hright]
    | _ => cases hform
  | .ternary condition thenBranch elseBranch, e', h, h', heq => by
    have hform : Expr.Form.ternary = e'.form := Expr.form_eq h h' heq
    cases e' with
    | ternary condition' thenBranch' elseBranch' =>
      obtain ⟨hcondition, hthen, helse⟩ : condition.phrase = condition'.phrase ∧
          thenBranch.phrase = thenBranch'.phrase ∧ elseBranch.phrase = elseBranch'.phrase := by
        simpa using heq
      simp [condition.relabel_eq condition' (h.part .ternaryCondition) (h'.part .ternaryCondition)
          hcondition,
        thenBranch.relabel_eq thenBranch' (h.part .ternaryThen) (h'.part .ternaryThen) hthen,
        elseBranch.relabel_eq elseBranch' (h.part .ternaryElse) (h'.part .ternaryElse) helse]
    | _ => cases hform
  | .access site name, e', h, h', heq => by
    have hform : Expr.Form.access = e'.form := Expr.form_eq h h' heq
    cases e' with
    | access site' name' =>
      have hname : name.lexeme = name'.lexeme := by simpa using heq
      simp [relabel_token h.here h'.here hname, Relabelling.site_blank]
    | _ => cases hform
  | .assign site name value, e', h, h', heq => by
    have hform : Expr.Form.assign = e'.form := Expr.form_eq h h' heq
    cases e' with
    | assign site' name' value' =>
      obtain ⟨hname, hvalue⟩ : name.lexeme = name'.lexeme ∧ value.phrase = value'.phrase := by
        simpa using heq
      simp [relabel_token h.here h'.here hname, Relabelling.site_blank,
        value.relabel_eq value' (h.part .assigned) (h'.part .assigned) hvalue]
    | _ => cases hform
  | .call callee paren arguments, e', h, h', heq => by
    have hform : Expr.Form.call = e'.form := Expr.form_eq h h' heq
    cases e' with
    | call callee' paren' arguments' =>
      obtain ⟨hcallee, harguments⟩ : callee.phrase = callee'.phrase ∧
          Expr.phrases arguments = Expr.phrases arguments' := by simpa using heq
      simp [relabel_fixed rfl h.here h'.here,
        callee.relabel_eq callee' (h.part .callee) (h'.part .callee) hcallee,
        Expr.relabelAll_eq arguments arguments' (fun _ he => h.part (.argument he))
          (fun _ he => h'.part (.argument he)) harguments]
    | _ => cases hform
  | .function keyword parameters body, e', h, h', heq => by
    have hform : Expr.Form.function = e'.form := Expr.form_eq h h' heq
    cases e' with
    | function keyword' parameters' body' =>
      obtain ⟨-, hnames, hbody⟩ := functionPhrase_inj heq
      simp [relabel_fixed rfl h.here.1 h'.here.1, relabel_names h.here.2 h'.here.2 hnames,
        Statement.relabelAll_eq body body' (fun _ hs => h.part (.literalBody hs))
          (fun _ hs => h'.part (.literalBody hs)) hbody]
    | _ => cases hform

theorem Expr.relabelAll_eq : (es es' : List Expr) → (∀ e ∈ es, e.Legible) →
    (∀ e ∈ es', e.Legible) → Expr.phrases es = Expr.phrases es' →
    Expr.relabelAll .blank es = Expr.relabelAll .blank es'
  | [], [], _, _, _ => rfl
  | [], _ :: _, _, _, heq => by simp at heq
  | _ :: _, [], _, _, heq => by simp at heq
  | e :: es, e' :: es', h, h', heq => by
    obtain ⟨he, hes⟩ := List.forall_mem_cons.1 h
    obtain ⟨he', hes'⟩ := List.forall_mem_cons.1 h'
    obtain ⟨hfirst, hrest⟩ := List.cons_eq_cons.1 heq
    simp [e.relabel_eq e' he he' hfirst, Expr.relabelAll_eq es es' hes hes' hrest]

/-- Legible statements that say the same differ in their labels at most. -/
theorem Statement.relabel_eq : (s s' : Statement) → s.Legible → s'.Legible →
    s.phrase = s'.phrase → s.relabel .blank = s'.relabel .blank
  | .block statements, s', h, h', heq => by
    -- The head leaves one constructor, and the number of items says which optional parts are there.
    have hhead := Statement.head_eq heq
    cases s' with
    | block statements' =>
      have hstatements : Statement.phrases statements = Statement.phrases statements' := by
        simpa using heq
      simp [Statement.relabelAll_eq statements statements' (fun _ hs => h.part (.blockBody hs))
        (fun _ hs => h'.part (.blockBody hs)) hstatements]
    | _ => simp [Statement.head] at hhead
  | .expression value, s', h, h', heq => by
    have hhead := Statement.head_eq heq
    cases s' with
    | expression value' =>
      have hvalue : value.phrase = value'.phrase := by simpa using heq
      simp [value.relabel_eq value' (h.part .value) (h'.part .value) hvalue]
    | _ => simp [Statement.head] at hhead
  | .function name parameters body, s', h, h', heq => by
    have hhead := Statement.head_eq heq
    cases s' with
    | function name' parameters' body' =>
      obtain ⟨hname, hnames, hbody⟩ := functionPhrase_inj heq
      simp [relabel_token h.here.1 h'.here.1 hname, relabel_names h.here.2 h'.here.2 hnames,
        Statement.relabelAll_eq body body' (fun _ hs => h.part (.functionBody hs))
          (fun _ hs => h'.part (.functionBody hs)) hbody]
    | _ => simp [Statement.head] at hhead
  | .ifElse condition thenBranch none, s', h, h', heq => by
    have hhead := Statement.head_eq heq
    cases s' with
    | ifElse condition' thenBranch' elseBranch' =>
      cases elseBranch' with
      | none =>
        obtain ⟨hcondition, hthen⟩ : condition.phrase = condition'.phrase ∧
            thenBranch.phrase = thenBranch'.phrase := by simpa using heq
        simp [condition.relabel_eq condition' (h.part .ifCondition) (h'.part .ifCondition)
            hcondition,
          thenBranch.relabel_eq thenBranch' (h.part .thenBranch) (h'.part .thenBranch) hthen]
      | some elseBranch' => simp at heq
    | _ => simp [Statement.head] at hhead
  | .ifElse condition thenBranch (some elseBranch), s', h, h', heq => by
    have hhead := Statement.head_eq heq
    cases s' with
    | ifElse condition' thenBranch' elseBranch' =>
      cases elseBranch' with
      | none => simp at heq
      | some elseBranch' =>
        obtain ⟨hcondition, hthen, helse⟩ : condition.phrase = condition'.phrase ∧
            thenBranch.phrase = thenBranch'.phrase ∧ elseBranch.phrase = elseBranch'.phrase := by
          simpa using heq
        simp [condition.relabel_eq condition' (h.part .ifCondition) (h'.part .ifCondition)
            hcondition,
          thenBranch.relabel_eq thenBranch' (h.part .thenBranch) (h'.part .thenBranch) hthen,
          elseBranch.relabel_eq elseBranch' (h.part .elseBranch) (h'.part .elseBranch) helse]
    | _ => simp [Statement.head] at hhead
  | .print value, s', h, h', heq => by
    have hhead := Statement.head_eq heq
    cases s' with
    | print value' =>
      have hvalue : value.phrase = value'.phrase := by simpa using heq
      simp [value.relabel_eq value' (h.part .printed) (h'.part .printed) hvalue]
    | _ => simp [Statement.head] at hhead
  | .return keyword none, s', h, h', heq => by
    have hhead := Statement.head_eq heq
    cases s' with
    | «return» keyword' value' =>
      cases value' with
      | none => simp [relabel_fixed rfl h.here h'.here]
      | some value' => simp at heq
    | _ => simp [Statement.head] at hhead
  | .return keyword (some value), s', h, h', heq => by
    have hhead := Statement.head_eq heq
    cases s' with
    | «return» keyword' value' =>
      cases value' with
      | none => simp at heq
      | some value' =>
        have hvalue : value.phrase = value'.phrase := by simpa using heq
        simp [relabel_fixed rfl h.here h'.here,
          value.relabel_eq value' (h.part .returned) (h'.part .returned) hvalue]
    | _ => simp [Statement.head] at hhead
  | .var name none, s', h, h', heq => by
    have hhead := Statement.head_eq heq
    cases s' with
    | var name' initializer' =>
      cases initializer' with
      | none =>
        have hname : name.lexeme = name'.lexeme := by simpa using heq
        simp [relabel_token h.here h'.here hname]
      | some initializer' => simp at heq
    | _ => simp [Statement.head] at hhead
  | .var name (some initializer), s', h, h', heq => by
    have hhead := Statement.head_eq heq
    cases s' with
    | var name' initializer' =>
      cases initializer' with
      | none => simp at heq
      | some initializer' =>
        obtain ⟨hname, hinitializer⟩ : name.lexeme = name'.lexeme ∧
            initializer.phrase = initializer'.phrase := by simpa using heq
        simp [relabel_token h.here h'.here hname,
          initializer.relabel_eq initializer' (h.part .initializer) (h'.part .initializer)
            hinitializer]
    | _ => simp [Statement.head] at hhead
  | .while condition body, s', h, h', heq => by
    have hhead := Statement.head_eq heq
    cases s' with
    | «while» condition' body' =>
      obtain ⟨hcondition, hbody⟩ : condition.phrase = condition'.phrase ∧
          body.phrase = body'.phrase := by simpa using heq
      simp [condition.relabel_eq condition' (h.part .loopCondition) (h'.part .loopCondition)
          hcondition, body.relabel_eq body' (h.part .loopBody) (h'.part .loopBody) hbody]
    | _ => simp [Statement.head] at hhead

theorem Statement.relabelAll_eq : (ss ss' : List Statement) → (∀ s ∈ ss, s.Legible) →
    (∀ s ∈ ss', s.Legible) → Statement.phrases ss = Statement.phrases ss' →
    Statement.relabelAll .blank ss = Statement.relabelAll .blank ss'
  | [], [], _, _, _ => rfl
  | [], _ :: _, _, _, heq => by simp at heq
  | _ :: _, [], _, _, heq => by simp at heq
  | s :: ss, s' :: ss', h, h', heq => by
    obtain ⟨hs, hss⟩ := List.forall_mem_cons.1 h
    obtain ⟨hs', hss'⟩ := List.forall_mem_cons.1 h'
    obtain ⟨hfirst, hrest⟩ := List.cons_eq_cons.1 heq
    simp [s.relabel_eq s' hs hs' hfirst, Statement.relabelAll_eq ss ss' hss hss' hrest]

end

end

section
variable {e e' : Expr} {s s' : Statement} {ss ss' : List Statement} {stack stack' : Nat}

theorem Expr.text_of_print? {text : String} (h : e.print? stack = some text) : e.text = text := by
  unfold Expr.print? at h
  split at h <;> cases h
  rfl

theorem Statement.text_of_print? {text : String} (h : s.print? stack = some text) :
    s.text = text := by
  unfold Statement.print? at h
  split at h <;> cases h
  rfl

/-- Legible expressions with one text differ in their labels at most. -/
theorem Expr.relabel_eq_of_text (h : e.Legible) (h' : e'.Legible) (heq : e.text = e'.text) :
    e.relabel .blank = e'.relabel .blank := by
  have hchars : e.phrase.chars = e'.phrase.chars := by
    rw [← e.toList_text, ← e'.toList_text, heq]
  exact e.relabel_eq e' h h' (Phrase.chars_inj (e.wordy_phrase h) (e'.wordy_phrase h') hchars)

theorem Statement.relabel_eq_of_text (h : s.Legible) (h' : s'.Legible) (heq : s.text = s'.text) :
    s.relabel .blank = s'.relabel .blank := by
  have hchars : s.phrase.chars = s'.phrase.chars := by
    rw [← s.toList_text, ← s'.toList_text, heq]
  exact s.relabel_eq s' h h' (Phrase.chars_inj (s.wordy_phrase h) (s'.wordy_phrase h') hchars)

/-- The lines of printed statements are those of their phrases. -/
theorem toList_lines {texts : List String} (h : ss.mapM (·.print? stack) = some texts) :
    (CommandLine.lines texts).toList =
      (Statement.phrases ss).flatMap fun x => x.chars ++ ['\n'] := by
  induction ss generalizing texts with
  | nil =>
    cases h
    rfl
  | cons s ss ih =>
    simp only [List.mapM_cons, Option.bind_eq_bind, Option.bind_eq_some_iff, Option.pure_def,
      Option.some.injEq] at h
    obtain ⟨text, hs, texts, hss, rfl⟩ := h
    have hfirst : text.toList = s.phrase.chars := by
      rw [← Statement.text_of_print? hs, s.toList_text]
    have hrest := ih hss
    simp only [CommandLine.lines] at hrest
    simp [CommandLine.lines, Statement.phrases, String.join_cons, hfirst, hrest]

theorem Statement.relabelAll_eq_of_lines {texts texts' : List String}
    (h : ∀ s ∈ ss, s.Legible) (h' : ∀ s ∈ ss', s.Legible)
    (hprint : ss.mapM (·.print? stack) = some texts)
    (hprint' : ss'.mapM (·.print? stack') = some texts')
    (heq : CommandLine.lines texts = CommandLine.lines texts') :
    Statement.relabelAll .blank ss = Statement.relabelAll .blank ss' := by
  have hlines := congrArg String.toList heq
  rw [toList_lines hprint, toList_lines hprint'] at hlines
  exact Statement.relabelAll_eq ss ss' h h' (Phrase.lines_inj (Statement.wordy_phrases ss h)
    (Statement.wordy_phrases ss' h') hlines)

end

section
variable {mode mode' : Mode} {room room' : Nat} {site site' : Site} {source source' : String}
  {r r' : Code.Reading} {n : Node} {ss : List Statement}

theorem Code.legible_of_has (h : Code.ofSource? mode room site source = some r)
    (hn : r.code.Has n) (hplain : n.Plain) : n.Everywhere Node.Legible :=
  Node.legible (Code.ofSource?_fits h hn) hplain

theorem Code.legible_of_program (h : Code.ofSource? mode room site source = some r)
    (hcode : r.code = .program ss) (hplain : ∀ s ∈ ss, (Node.statement s).Plain) :
    ∀ s ∈ ss, s.Legible := by
  intro s hs
  have hhas : r.code.Has (.statement s) := by
    rw [hcode]
    exact ⟨s, hs, .refl⟩
  exact Code.legible_of_has h hhas (hplain s hs)

/-- Texts tell what was read. Expressions in two readings, without strings and infinities, that
have the same text are the same up to the lines of their tokens (and up to sites, which say which
node a node is and not what it is). So are statements, and so are the statements of two programs
with the same lines of text. -/
theorem Code.trees_eq_of_text (h : Code.ofSource? mode room site source = some r)
    (h' : Code.ofSource? mode' room' site' source' = some r') :
    (∀ e e' stack stack' text, r.code.Has (.expression e) → r'.code.Has (.expression e') →
      (Node.expression e).Plain → (Node.expression e').Plain →
      e.print? stack = some text → e'.print? stack' = some text →
      e.relabel .blank = e'.relabel .blank) ∧
    (∀ s s' stack stack' text, r.code.Has (.statement s) → r'.code.Has (.statement s') →
      (Node.statement s).Plain → (Node.statement s').Plain →
      s.print? stack = some text → s'.print? stack' = some text →
      s.relabel .blank = s'.relabel .blank) ∧
    (∀ ss ss' stack stack' texts texts', r.code = .program ss → r'.code = .program ss' →
      (∀ s ∈ ss, (Node.statement s).Plain) → (∀ s ∈ ss', (Node.statement s).Plain) →
      r.code.print? stack = some texts → r'.code.print? stack' = some texts' →
      CommandLine.lines texts = CommandLine.lines texts' →
      Statement.relabelAll .blank ss = Statement.relabelAll .blank ss') := by
  refine ⟨?_, ?_, ?_⟩
  · intro e e' stack stack' text he he' hplain hplain' hprint hprint'
    exact Expr.relabel_eq_of_text (Code.legible_of_has h he hplain)
      (Code.legible_of_has h' he' hplain')
      ((Expr.text_of_print? hprint).trans (Expr.text_of_print? hprint').symm)
  · intro s s' stack stack' text hs hs' hplain hplain' hprint hprint'
    exact Statement.relabel_eq_of_text (Code.legible_of_has h hs hplain)
      (Code.legible_of_has h' hs' hplain')
      ((Statement.text_of_print? hprint).trans (Statement.text_of_print? hprint').symm)
  · intro ss ss' stack stack' texts texts' hcode hcode' hplain hplain' hprint hprint' heq
    rw [hcode] at hprint
    rw [hcode'] at hprint'
    exact Statement.relabelAll_eq_of_lines (Code.legible_of_program h hcode hplain)
      (Code.legible_of_program h' hcode' hplain') hprint hprint' heq

end

/-- A negated number in a line. -/
def negationAt (line : Int) : Expr :=
  .unary ⟨.minus, "-", .nil, line⟩ (.literal (.number (Number.ofDigits ['1'] [])))

theorem plain_negationAt (line : Int) : (Node.statement (.expression (negationAt line))).Plain := by
  have hplain : (Node.statement (.expression (negationAt line))).Everywhere
      fun n => ∀ v, n = .expression (.literal v) → v.Plain := by
    refine .of_parts (by simp) fun k p hp => ?_
    cases hp
    refine .of_parts (by simp [negationAt]) fun k p hp => ?_
    cases hp
    refine .of_parts ?_ fun k p hp => by cases hp
    rintro v ⟨⟩
    exact ⟨_, _, rfl⟩
  exact fun v hv => hplain _ hv v rfl

theorem ofSource?_negationAt :
    Code.ofSource? .program 60 0 "-1;" = some ⟨.program [.expression (negationAt 1)], [], 0⟩ ∧
      Code.ofSource? .program 60 0 "\n- 1 ;" =
        some ⟨.program [.expression (negationAt 2)], [], 0⟩ := by
  have hscan : Token.scan "-1;" = ⟨[⟨.minus, "-", .nil, 1⟩,
      ⟨.number, "1", .number (Number.ofDigits ['1'] []), 1⟩, ⟨.semicolon, ";", .nil, 1⟩,
      ⟨.eof, "", .nil, 1⟩], []⟩ := by
    decide +kernel
  have hscan' : Token.scan "\n- 1 ;" = ⟨[⟨.minus, "-", .nil, 2⟩,
      ⟨.number, "1", .number (Number.ofDigits ['1'] []), 2⟩, ⟨.semicolon, ";", .nil, 2⟩,
      ⟨.eof, "", .nil, 2⟩], []⟩ := by
    decide +kernel
  constructor
  · simp only [Code.ofSource?, Code.ofTokens?, hscan]
    rfl
  · simp only [Code.ofSource?, Code.ofTokens?, hscan']
    rfl

theorem Code.trees_eq_of_text_negation :
    (negationAt 1).relabel .blank = (negationAt 2).relabel .blank ∧
      (Statement.expression (negationAt 1)).relabel .blank =
        (Statement.expression (negationAt 2)).relabel .blank ∧
      Statement.relabelAll .blank [.expression (negationAt 1)] =
        Statement.relabelAll .blank [.expression (negationAt 2)] := by
  have hwithin (line : Int) : (Node.statement (.expression (negationAt line))).Within
      (.expression (negationAt line)) := .single ⟨0, .value⟩
  have hplain (line : Int) : (Node.expression (negationAt line)).Plain :=
    fun v hv => plain_negationAt line v ((hwithin line).trans hv)
  obtain ⟨hread, hread'⟩ := ofSource?_negationAt
  obtain ⟨hexpression, hstatement, hprogram⟩ := Code.trees_eq_of_text hread hread'
  exact ⟨hexpression _ _ 60 60 "(- 1.0)" ⟨_, List.mem_singleton_self _, hwithin 1⟩
      ⟨_, List.mem_singleton_self _, hwithin 2⟩ (hplain 1) (hplain 2) rfl rfl,
    hstatement _ _ 60 60 "(expr (- 1.0))" ⟨_, List.mem_singleton_self _, .refl⟩
      ⟨_, List.mem_singleton_self _, .refl⟩ (plain_negationAt 1) (plain_negationAt 2) rfl rfl,
    hprogram _ _ 60 60 ["(expr (- 1.0))"] ["(expr (- 1.0))"] rfl rfl
      (by simpa using plain_negationAt 1) (by simpa using plain_negationAt 2) rfl rfl rfl⟩

end Lox

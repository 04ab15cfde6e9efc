import Lox.Proofs.Scoping.Alike
import Lox.Proofs.Syntax.Form
import Lox.Proofs.Syntax.Number
import Lox.Proofs.Token.Word

/-!
Trees of expressions as forms. The form tells what kind of tree it belongs to, by its head and the
number of its parts, and from there on what the parts of the tree are. So the text of a tree tells
the tree, up to the places of its tokens: heads are spelled like no operator, names like no literal.
-/

namespace Lox

variable {ρ : Type}

mutual

/-- The form that the text of a tree has. -/
def Expr.form : Expr ρ → Form
  | .literal value => .word value.chars
  | .grouping inner => .node ['g', 'r', 'o', 'u', 'p'] [inner.form]
  | .unary operator operand => .node operator.lexeme.toList [operand.form]
  | .binary left operator right => .node operator.lexeme.toList [left.form, right.form]
  | .logical left operator right => .node operator.lexeme.toList [left.form, right.form]
  | .var _ name => .word name.lexeme.toList
  | .assign _ name value => .node ['='] [.word name.lexeme.toList, value.form]
  | .call callee _ arguments => .node ['c', 'a', 'l', 'l'] (callee.form :: Expr.forms arguments)

def Expr.forms : List (Expr ρ) → List Form
  | [] => []
  | e :: es => e.form :: Expr.forms es

end

section Text

/-! The text of each kind of tree, as it is defined. -/

variable (left right : Expr ρ) (operator name paren : Token) (ref : ρ) (es : List (Expr ρ))

theorem Expr.chars_grouping : (grouping left).chars = "(group ".toList ++ left.chars ++ [')'] :=
  rfl

theorem Expr.chars_unary :
    (unary operator left).chars = '(' :: operator.lexeme.toList ++ ' ' :: left.chars ++ [')'] :=
  rfl

theorem Expr.chars_binary : (binary left operator right).chars =
    '(' :: operator.lexeme.toList ++ ' ' :: left.chars ++ ' ' :: right.chars ++ [')'] :=
  rfl

theorem Expr.chars_logical : (logical left operator right).chars =
    '(' :: operator.lexeme.toList ++ ' ' :: left.chars ++ ' ' :: right.chars ++ [')'] :=
  rfl

theorem Expr.chars_assign : (assign ref name left).chars =
    "(= ".toList ++ name.lexeme.toList ++ ' ' :: left.chars ++ [')'] :=
  rfl

theorem Expr.chars_call : (call left paren es).chars =
    "(call ".toList ++ left.chars ++ Expr.charsAll es ++ [')'] :=
  rfl

theorem Expr.charsAll_cons : Expr.charsAll (left :: es) = ' ' :: left.chars ++ Expr.charsAll es :=
  rfl

end Text

mutual

/-- The form of a tree has the text of the tree. -/
theorem Expr.chars_form (e : Expr ρ) : e.form.chars = e.chars := by
  cases e with
  | literal value => rfl
  | grouping inner =>
    simp [Expr.form, Expr.chars_grouping, Form.chars, Form.charsAll, inner.chars_form]
  | unary operator operand =>
    simp [Expr.form, Expr.chars_unary, Form.chars, Form.charsAll, operand.chars_form]
  | binary left operator right =>
    simp [Expr.form, Expr.chars_binary, Form.chars, Form.charsAll, left.chars_form,
      right.chars_form]
  | logical left operator right =>
    simp [Expr.form, Expr.chars_logical, Form.chars, Form.charsAll, left.chars_form,
      right.chars_form]
  | var ref name => rfl
  | assign ref name value =>
    simp [Expr.form, Expr.chars_assign, Form.chars, Form.charsAll, value.chars_form]
  | call callee paren arguments =>
    simp [Expr.form, Expr.chars_call, Form.chars, Form.charsAll, callee.chars_form,
      Expr.charsAll_forms arguments]

theorem Expr.charsAll_forms (es : List (Expr ρ)) :
    Form.charsAll (Expr.forms es) = Expr.charsAll es := by
  cases es with
  | nil => rfl
  | cons e es =>
    simp [Expr.forms, Expr.charsAll_cons, Form.charsAll, e.chars_form, Expr.charsAll_forms es]

end

/-! ### Literals and tokens -/

/-- The text of the literal tells it: it is no string, and a finite number if it is one. -/
def Literal.Definite : Literal → Prop
  | .number value => ∃ x, Decimal.Reading.ofFloat value = .finite x
  | .string _ => False
  | .bool _ | .nil => True

/-- The token is a word of its kind. -/
def Token.Spelled (t : Token) : Prop :=
  Word (some t.kind) t.lexeme.toList

/-- The mark is one of those that stand for an operation. -/
def Punct.isOperator : Punct → Bool
  | minus | plus | slash | star | bang | bangEqual | equalEqual | greater | greaterEqual
  | less | lessEqual => true
  | leftParen | rightParen | leftBrace | rightBrace | comma | dot | semicolon | equal => false

variable {t t' : Token} {p : Punct} {k : Keyword} {c : Char}

/-- Tokens of one text are of one kind. -/
theorem Token.Spelled.sameText (h : t.Spelled) (h' : t'.Spelled)
    (heq : t.lexeme.toList = t'.lexeme.toList) : t.SameText t' := by
  rw [Spelled, ← heq] at h'
  exact ⟨Option.some.inj (h'.kind_unique h), String.toList_injective heq.symm⟩

theorem Token.Spelled.toList_of_punct (h : t.Spelled) (hkind : t.kind = .punct p) :
    t.lexeme.toList = p.spelling := by
  rw [Spelled, hkind] at h
  generalize t.lexeme.toList = text at h
  cases h with
  | punct => rfl

theorem Token.Spelled.toList_of_keyword (h : t.Spelled) (hkind : t.kind = .keyword k) :
    t.lexeme.toList = k.spelling := by
  rw [Spelled, hkind] at h
  generalize t.lexeme.toList = text at h
  cases h with
  | keyword => rfl

/-- An identifier is spelled with a letter and characters of words, and like no keyword. -/
theorem Token.Spelled.exists_of_identifier (h : t.Spelled) (hkind : t.kind = .identifier) :
    ∃ c cs, t.lexeme.toList = c :: cs ∧ Lexeme.isLetter c ∧ (∀ d ∈ cs, Lexeme.isWordChar d) ∧
      ∀ k : Keyword, k.spelling ≠ c :: cs := by
  rw [Spelled, hkind] at h
  generalize t.lexeme.toList = text at h
  cases h with
  | identifier hc hcs hother => exact ⟨_, _, rfl, hc, hcs, hother⟩

/-! ### Kinds of trees -/

/-- Which kind of node stands at the root. -/
inductive Expr.Shape
  | literal | grouping | unary | binary | logical | var | assign | call

def Expr.shape : Expr ρ → Expr.Shape
  | .literal _ => .literal
  | .grouping _ => .grouping
  | .unary .. => .unary
  | .binary .. => .binary
  | .logical .. => .logical
  | .var .. => .var
  | .assign .. => .assign
  | .call .. => .call

/-- The kind of node that has such a form. -/
def Form.shape : Form → Expr.Shape
  | .word text =>
    if (text.head?.any Lexeme.isLetter && (Keyword.ofSpelling? text).isNone) = true then .var
    else .literal
  | .node head parts =>
    match Punct.ofSpelling? head with
    | some p =>
      if parts.length = 1 then .unary else if p = .equal then .assign else .binary
    | none =>
      match Keyword.ofSpelling? head with
      | some _ => .logical
      | none => if head = ['g', 'r', 'o', 'u', 'p'] then .grouping else .call

mutual

/-- All numbers are finite, and there are no strings. -/
def Expr.Definite : Expr ρ → Prop
  | .literal value => value.Definite
  | .grouping inner => inner.Definite
  | .unary _ operand => operand.Definite
  | .binary left _ right => left.Definite ∧ right.Definite
  | .logical left _ right => left.Definite ∧ right.Definite
  | .var .. => True
  | .assign _ _ value => value.Definite
  | .call callee _ arguments => callee.Definite ∧ Expr.DefiniteAll arguments

def Expr.DefiniteAll : List (Expr ρ) → Prop
  | [] => True
  | e :: es => e.Definite ∧ Expr.DefiniteAll es

end

mutual

/-- The tokens of the tree are words of the kinds that the grammar wants there. -/
def Expr.Spelled : Expr ρ → Prop
  | .literal _ => True
  | .grouping inner => inner.Spelled
  | .unary operator operand =>
    operator.Spelled ∧ (∃ p, operator.kind = .punct p ∧ p.isOperator) ∧ operand.Spelled
  | .binary left operator right =>
    left.Spelled ∧ operator.Spelled ∧ (∃ p, operator.kind = .punct p ∧ p.isOperator) ∧
      right.Spelled
  | .logical left operator right =>
    left.Spelled ∧ operator.Spelled ∧ (∃ k, operator.kind = .keyword k) ∧ right.Spelled
  | .var _ name => name.Spelled ∧ name.kind = .identifier
  | .assign _ name value => name.Spelled ∧ name.kind = .identifier ∧ value.Spelled
  | .call callee paren arguments =>
    callee.Spelled ∧ paren.Spelled ∧ paren.kind = .punct .rightParen ∧ Expr.SpelledAll arguments

def Expr.SpelledAll : List (Expr ρ) → Prop
  | [] => True
  | e :: es => e.Spelled ∧ Expr.SpelledAll es

end

theorem isPlain_of_isWordChar (h : Lexeme.isWordChar c) : Form.isPlain c := by
  rw [Form.isPlain_iff]
  refine ⟨?_, ?_, ?_⟩ <;>
  · rintro rfl
    exact absurd h (by decide)

theorem isPlain_of_isDigit (h : c.isDigit) : Form.isPlain c := by
  have hdigit : Lexeme.isDigit c := h
  refine isPlain_of_isWordChar ?_
  rw [Lexeme.isWordChar, hdigit, Bool.or_true]

theorem isLetter_of_isDigit (h : c.isDigit) : Lexeme.isLetter c = false := by
  by_contra hletter
  have hdigit : c.isDigit = false :=
    Lexeme.isDigit_of_isLetter (Bool.eq_true_of_not_eq_false hletter)
  exact Bool.false_ne_true (hdigit.symm.trans h)

/-- No operator is spelled with a blank or a parenthesis. -/
theorem Punct.isPlain_spelling (h : p.isOperator) : ∀ c ∈ p.spelling, Form.isPlain c := by
  cases p <;> first | cases h; done | exact List.all_eq_true.mp rfl

theorem Keyword.isPlain_spelling (k : Keyword) : ∀ c ∈ k.spelling, Form.isPlain c :=
  fun _ hc => isPlain_of_isWordChar (isWordChar_of_mem_spelling hc)

/-- Each spelling finds its own keyword. -/
theorem Keyword.ofSpelling?_spelling (k : Keyword) : ofSpelling? k.spelling = some k := by
  cases k <;> rfl

/-- No keyword is spelled like punctuation. -/
theorem Punct.ofSpelling?_keyword (k : Keyword) : ofSpelling? k.spelling = none := by
  cases k <;> rfl

section Literals

variable {value value' : Literal}

/-- No number is written with a letter in front. -/
theorem Literal.chars_number_ne {x : Float} (h : (number x).Definite) {cs : List Char}
    (hc : Lexeme.isLetter c) : (number x).chars ≠ c :: cs := by
  intro heq
  obtain ⟨b, hb⟩ := h
  obtain ⟨⟨d, ds, hchars, hd⟩, -⟩ := exists_chars_number hb
  obtain ⟨rfl, -⟩ := List.cons.inj (hchars.symm.trans heq)
  obtain hd | rfl := hd
  · exact Bool.false_ne_true ((isLetter_of_isDigit hd).symm.trans hc)
  · exact absurd hc (by decide)

/-- No literal is spelled like a name. -/
theorem Literal.isLetter_head (h : value.Definite) :
    (value.chars.head?.any Lexeme.isLetter && (Keyword.ofSpelling? value.chars).isNone) =
      false := by
  cases value with
  | number x =>
    cases hchars : (number x).chars with
    | nil => rfl
    | cons c cs =>
      have hletter : Lexeme.isLetter c = false := by
        by_contra hc
        exact chars_number_ne h (Bool.eq_true_of_not_eq_false hc) hchars
      rw [List.head?_cons, Option.any_some, hletter, Bool.false_and]
  | string contents => exact h.elim
  | bool b => cases b <;> rfl
  | nil => rfl

/-- Literals are written without blanks and parentheses, texts apart. -/
theorem Literal.isPlain_of_mem (h : value.Definite) (hc : c ∈ value.chars) : Form.isPlain c := by
  cases value with
  | number x =>
    obtain ⟨b, hb⟩ := h
    obtain hc | rfl | rfl := (exists_chars_number hb).2 c hc
    · exact isPlain_of_isDigit hc
    · rfl
    · rfl
  | string contents => exact h.elim
  | bool b => cases b <;> exact List.all_eq_true.mp rfl c hc
  | nil => exact List.all_eq_true.mp rfl c hc

/-- The text of a literal tells it. -/
theorem Literal.eq_of_chars (h : value.Definite) (h' : value'.Definite)
    (heq : value.chars = value'.chars) : value = value' := by
  cases value with
  | number x =>
    cases value' with
    | number y =>
      obtain ⟨b, hb⟩ := h
      obtain ⟨b', hb'⟩ := h'
      rw [eq_of_chars_number hb hb' heq]
    | string contents => exact h'.elim
    | bool b => cases b <;> exact absurd heq (chars_number_ne h (by decide))
    | nil => exact absurd heq (chars_number_ne h (by decide))
  | string contents => exact h.elim
  | bool b =>
    cases value' with
    | number y => cases b <;> exact absurd heq.symm (chars_number_ne h' (by decide))
    | string contents => exact h'.elim
    | bool b' => cases b <;> cases b' <;> first | rfl | exact absurd heq (by decide)
    | nil => cases b <;> exact absurd heq (by decide)
  | nil =>
    cases value' with
    | number y => exact absurd heq.symm (chars_number_ne h' (by decide))
    | string contents => exact h'.elim
    | bool b => cases b <;> exact absurd heq (by decide)
    | nil => rfl

end Literals

/-- A form tells what kind of tree it belongs to. -/
theorem Expr.shape_form {e : Expr ρ} (he : e.Spelled) (hdefinite : e.Definite) :
    e.form.shape = e.shape := by
  cases e with
  | literal value =>
    rw [form, Form.shape, Literal.isLetter_head hdefinite, if_neg Bool.false_ne_true]
    rfl
  | grouping inner => rfl
  | unary operator operand =>
    obtain ⟨hoperator, ⟨p, hkind, hp⟩, -⟩ := he
    rw [form, Form.shape, hoperator.toList_of_punct hkind, Punct.ofSpelling?_spelling]
    rfl
  | binary left operator right =>
    obtain ⟨-, hoperator, ⟨p, hkind, hp⟩, -⟩ := he
    have hequal : p ≠ .equal := by
      rintro rfl
      cases hp
    rw [form, Form.shape, hoperator.toList_of_punct hkind, Punct.ofSpelling?_spelling]
    exact if_neg hequal
  | logical left operator right =>
    obtain ⟨-, hoperator, ⟨k, hkind⟩, -⟩ := he
    rw [form, Form.shape, hoperator.toList_of_keyword hkind, Punct.ofSpelling?_keyword,
      Keyword.ofSpelling?_spelling]
    rfl
  | var ref name =>
    obtain ⟨c, cs, htext, hc, -, hother⟩ := he.1.exists_of_identifier he.2
    have hkeyword : Keyword.ofSpelling? (c :: cs) = none :=
      Option.eq_none_iff_forall_ne_some.mpr fun k hk =>
        hother k (Keyword.spelling_of_ofSpelling? hk)
    rw [form, Form.shape, htext, hkeyword, List.head?_cons, Option.any_some, hc]
    rfl
  | assign ref name value => rfl
  | call callee paren arguments => rfl

theorem Token.Spelled.isPlain_of_identifier (h : t.Spelled) (hkind : t.kind = .identifier) :
    ∀ c ∈ t.lexeme.toList, Form.isPlain c := by
  obtain ⟨c, cs, htext, hc, hcs, -⟩ := h.exists_of_identifier hkind
  rw [htext]
  intro d hd
  obtain rfl | hd := List.mem_cons.mp hd
  · exact isPlain_of_isWordChar (Lexeme.isWordChar_of_isLetter hc)
  · exact isPlain_of_isWordChar (hcs d hd)

theorem Token.Spelled.isPlain_of_operator (h : t.Spelled)
    (hkind : ∃ p, t.kind = .punct p ∧ p.isOperator) : ∀ c ∈ t.lexeme.toList, Form.isPlain c := by
  obtain ⟨p, hkind, hp⟩ := hkind
  rw [h.toList_of_punct hkind]
  exact Punct.isPlain_spelling hp

mutual

/-- The form of a tree has plain words only. -/
theorem Expr.plain_form {e : Expr ρ} (he : e.Spelled) (hdefinite : e.Definite) : e.form.Plain := by
  cases e with
  | literal value => exact fun c => Literal.isPlain_of_mem hdefinite
  | grouping inner =>
    exact ⟨List.all_eq_true.mp rfl, Expr.plain_form he hdefinite, trivial⟩
  | unary operator operand =>
    obtain ⟨hoperator, hkind, hoperand⟩ := he
    exact ⟨hoperator.isPlain_of_operator hkind, Expr.plain_form hoperand hdefinite, trivial⟩
  | binary left operator right =>
    obtain ⟨hleft, hoperator, hkind, hright⟩ := he
    exact ⟨hoperator.isPlain_of_operator hkind, Expr.plain_form hleft hdefinite.1,
      Expr.plain_form hright hdefinite.2, trivial⟩
  | logical left operator right =>
    obtain ⟨hleft, hoperator, ⟨k, hkind⟩, hright⟩ := he
    refine ⟨?_, Expr.plain_form hleft hdefinite.1, Expr.plain_form hright hdefinite.2, trivial⟩
    rw [hoperator.toList_of_keyword hkind]
    exact k.isPlain_spelling
  | var ref name => exact he.1.isPlain_of_identifier he.2
  | assign ref name value =>
    obtain ⟨hname, hkind, hvalue⟩ := he
    exact ⟨List.all_eq_true.mp rfl, hname.isPlain_of_identifier hkind,
      Expr.plain_form hvalue hdefinite, trivial⟩
  | call callee paren arguments =>
    obtain ⟨hcallee, -, -, harguments⟩ := he
    exact ⟨List.all_eq_true.mp rfl, Expr.plain_form hcallee hdefinite.1,
      Expr.plainAll_forms harguments hdefinite.2⟩

theorem Expr.plainAll_forms {es : List (Expr ρ)} (hes : Expr.SpelledAll es)
    (hdefinite : Expr.DefiniteAll es) : Form.PlainAll (Expr.forms es) := by
  cases es with
  | nil => exact trivial
  | cons e es =>
    exact ⟨Expr.plain_form hes.1 hdefinite.1, Expr.plainAll_forms hes.2 hdefinite.2⟩

end

mutual

/-- The form of a tree tells the tree. -/
theorem Expr.alike_of_form {e e' : Expr ρ} (he : e.Spelled) (he' : e'.Spelled)
    (hdefinite : e.Definite) (hdefinite' : e'.Definite) (h : e.form = e'.form) :
    e.Alike Token.SameText (fun _ _ => True) e' := by
  have hshape : e.shape = e'.shape := by
    rw [← shape_form he hdefinite, h, shape_form he' hdefinite']
  cases e with
  | literal value =>
    cases e' <;> cases hshape
    obtain rfl := Literal.eq_of_chars hdefinite hdefinite' (Form.word.inj h)
    exact .literal
  | grouping inner =>
    cases e' <;> cases hshape
    obtain ⟨-, hparts⟩ := Form.node.inj h
    exact .grouping (Expr.alike_of_form he he' hdefinite hdefinite' (List.cons.inj hparts).1)
  | unary operator operand =>
    cases e' <;> cases hshape
    obtain ⟨hoperator, -, hoperand⟩ := he
    obtain ⟨hoperator', -, hoperand'⟩ := he'
    obtain ⟨hhead, hparts⟩ := Form.node.inj h
    exact .unary (hoperator.sameText hoperator' hhead)
      (Expr.alike_of_form hoperand hoperand' hdefinite hdefinite' (List.cons.inj hparts).1)
  | binary left operator right =>
    cases e' <;> cases hshape
    obtain ⟨hleft, hoperator, -, hright⟩ := he
    obtain ⟨hleft', hoperator', -, hright'⟩ := he'
    obtain ⟨hhead, hparts⟩ := Form.node.inj h
    obtain ⟨hfirst, hsecond⟩ := List.cons.inj hparts
    exact .binary (Expr.alike_of_form hleft hleft' hdefinite.1 hdefinite'.1 hfirst)
      (hoperator.sameText hoperator' hhead)
      (Expr.alike_of_form hright hright' hdefinite.2 hdefinite'.2 (List.cons.inj hsecond).1)
  | logical left operator right =>
    cases e' <;> cases hshape
    obtain ⟨hleft, hoperator, -, hright⟩ := he
    obtain ⟨hleft', hoperator', -, hright'⟩ := he'
    obtain ⟨hhead, hparts⟩ := Form.node.inj h
    obtain ⟨hfirst, hsecond⟩ := List.cons.inj hparts
    exact .logical (Expr.alike_of_form hleft hleft' hdefinite.1 hdefinite'.1 hfirst)
      (hoperator.sameText hoperator' hhead)
      (Expr.alike_of_form hright hright' hdefinite.2 hdefinite'.2 (List.cons.inj hsecond).1)
  | var ref name =>
    cases e' <;> cases hshape
    exact .var trivial (he.1.sameText he'.1 (Form.word.inj h))
  | assign ref name value =>
    cases e' <;> cases hshape
    obtain ⟨hname, -, hvalue⟩ := he
    obtain ⟨hname', -, hvalue'⟩ := he'
    obtain ⟨-, hparts⟩ := Form.node.inj h
    obtain ⟨hfirst, hsecond⟩ := List.cons.inj hparts
    exact .assign trivial (hname.sameText hname' (Form.word.inj hfirst))
      (Expr.alike_of_form hvalue hvalue' hdefinite hdefinite' (List.cons.inj hsecond).1)
  | call callee paren arguments =>
    cases e' <;> cases hshape
    obtain ⟨hcallee, hparen, hkind, harguments⟩ := he
    obtain ⟨hcallee', hparen', hkind', harguments'⟩ := he'
    obtain ⟨-, hparts⟩ := Form.node.inj h
    obtain ⟨hfirst, hrest⟩ := List.cons.inj hparts
    have hparens := (hparen.toList_of_punct hkind).trans (hparen'.toList_of_punct hkind').symm
    exact .call (Expr.alike_of_form hcallee hcallee' hdefinite.1 hdefinite'.1 hfirst)
      (hparen.sameText hparen' hparens)
      (Expr.alikeAll_of_forms harguments harguments' hdefinite.2 hdefinite'.2 hrest)

/-- Lists of trees with the same forms are alike. -/
theorem Expr.alikeAll_of_forms {es es' : List (Expr ρ)} (hes : Expr.SpelledAll es)
    (hes' : Expr.SpelledAll es') (hdefinite : Expr.DefiniteAll es)
    (hdefinite' : Expr.DefiniteAll es') (h : Expr.forms es = Expr.forms es') :
    Expr.AlikeAll Token.SameText (fun _ _ => True) es es' := by
  cases es with
  | nil =>
    cases es' with
    | nil => exact .nil
    | cons e' es' => cases h
  | cons e es =>
    cases es' with
    | nil => cases h
    | cons e' es' =>
      obtain ⟨hfirst, hrest⟩ := List.cons.inj h
      exact .cons (Expr.alike_of_form hes.1 hes'.1 hdefinite.1 hdefinite'.1 hfirst)
        (Expr.alikeAll_of_forms hes.2 hes'.2 hdefinite.2 hdefinite'.2 hrest)

end

/-- The text of a tree tells the tree. -/
theorem Expr.alike_of_text {e e' : Expr ρ} (he : e.Spelled) (he' : e'.Spelled)
    (hdefinite : e.Definite) (hdefinite' : e'.Definite) (h : e.text = e'.text) :
    e.Alike Token.SameText (fun _ _ => True) e' := by
  have hchars : e.form.chars = e'.form.chars := by
    rw [e.chars_form, e'.chars_form]
    exact String.ofList_injective h
  exact Expr.alike_of_form he he' hdefinite hdefinite'
    (Form.chars_inj (Expr.plain_form he hdefinite) (Expr.plain_form he' hdefinite') hchars)

end Lox

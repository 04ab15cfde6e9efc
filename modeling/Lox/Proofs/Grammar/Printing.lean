import Mathlib
import Lox.Proofs.Grammar.Program
import Lox.Proofs.Grammar.Relocation
import Lox.Proofs.Syntax.Readability
import Lox.Proofs.Token.Number

namespace Lox.Grammar

variable {ts : List Token} {e : Expr Unit}

/-- Either of two marks that stand for operations is such a mark. -/
theorem exists_isOperator_of_or {t : Token} {p q : Punct} (hp : p.isOperator) (hq : q.isOperator)
    (h : (t.isPunct p || t.isPunct q) = true) : ∃ p, t.kind = .punct p ∧ p.isOperator := by
  rw [Bool.or_eq_true, Token.isPunct_iff, Token.isPunct_iff] at h
  obtain h | h := h
  · exact ⟨p, h, hp⟩
  · exact ⟨q, h, hq⟩

/-- Between two operands stands a keyword, or a mark that stands for an operation. -/
theorem Tier.spelled_node {tier : Tier} {operator : Token} {left right : Expr Unit}
    (h : tier.isOperator operator) (hoperator : operator.Spelled) (hleft : left.Spelled)
    (hright : right.Spelled) : (tier.node left operator right).Spelled := by
  cases tier with
  | disjunction => exact ⟨hleft, hoperator, ⟨_, Token.isKeyword_iff.mp h⟩, hright⟩
  | conjunction => exact ⟨hleft, hoperator, ⟨_, Token.isKeyword_iff.mp h⟩, hright⟩
  | equality => exact ⟨hleft, hoperator, exists_isOperator_of_or rfl rfl h, hright⟩
  | comparison =>
    simp only [isOperator] at h
    rw [Bool.or_assoc, Bool.or_eq_true] at h
    obtain h | h := h
    · exact ⟨hleft, hoperator, exists_isOperator_of_or rfl rfl h, hright⟩
    · exact ⟨hleft, hoperator, exists_isOperator_of_or rfl rfl h, hright⟩
  | sum => exact ⟨hleft, hoperator, exists_isOperator_of_or rfl rfl h, hright⟩
  | product => exact ⟨hleft, hoperator, exists_isOperator_of_or rfl rfl h, hright⟩

theorem spelledAll_of_forall {es : List (Expr Unit)} (h : ∀ e ∈ es, e.Spelled) :
    Expr.SpelledAll es := by
  induction es with
  | nil => exact trivial
  | cons e es ih =>
    exact ⟨h e List.mem_cons_self, ih fun e' he' => h e' (List.mem_cons_of_mem _ he')⟩

/-- A tree has its tokens from the sentence, each in a place for its kind. -/
theorem Phrase.Derives.spelled {p : Phrase} (h : p.Derives ts e) (hts : ∀ t ∈ ts, t.Spelled) :
    e.Spelled := by
  induction h with
  | assignment hname hequals _ ih =>
    rw [List.forall_mem_cons, List.forall_mem_cons] at hts
    exact ⟨hts.1, Token.isIdentifier_iff.mp hname, ih hts.2.2⟩
  | disjunction _ ih | operand _ ih | unsigned _ ih | callee _ ih => exact ih hts
  | operation _ hoperator _ ihleft ihright =>
    rw [List.forall_mem_append, List.forall_mem_cons] at hts
    exact Tier.spelled_node hoperator hts.2.1 (ihleft hts.1) (ihright hts.2.2)
  | signed hoperator _ ih =>
    rw [List.forall_mem_cons] at hts
    exact ⟨hts.1, exists_isOperator_of_or rfl rfl hoperator, ih hts.2⟩
  | application _ _ _ hseparated _ hclose ih ihparts =>
    rw [List.forall_mem_append, List.forall_mem_cons, List.forall_mem_append,
      List.forall_mem_singleton] at hts
    obtain ⟨hcallee, -, harguments, hparen⟩ := hts
    refine ⟨ih hcallee, hparen, Token.isPunct_iff.mp hclose, spelledAll_of_forall fun e' he' => ?_⟩
    obtain ⟨part, hpart, rfl⟩ := List.mem_map.mp he'
    have hsubset := hseparated.subset (List.mem_map_of_mem hpart)
    exact ihparts part hpart fun t ht => harguments t (hsubset ht)
  | falsity | truth | nil | number | string => exact trivial
  | «variable» hname =>
    rw [List.forall_mem_singleton] at hts
    exact ⟨hts, Token.isIdentifier_iff.mp hname⟩
  | grouping _ _ _ ih =>
    rw [List.forall_mem_cons, List.forall_mem_append] at hts
    exact ih hts.2.1

/-- The grammar reads these tokens, each of which some source has, as this tree and has nothing to
    report. -/
structure ReadAs (ts : List Token) (last : Token) (e : Expr Unit) : Prop where
  scanned : ∀ t ∈ ts, ∃ source, t ∈ (Tokens.ofString source).tokens
  endFree : EndFree ts
  isEnd : last.isEnd
  result : (wholeExpression (ts ++ [last])).result = some e
  errors : (wholeExpression (ts ++ [last])).errors = []

/-- What is read from tokens is spelled by them. -/
theorem ReadAs.spelled {last : Token} (h : ReadAs ts last e) : e.Spelled := by
  obtain ⟨e', hresult, hderives⟩ := wholeExpression_sound h.endFree h.isEnd h.errors
  obtain rfl := Option.some.inj (hresult.symm.trans h.result)
  refine hderives.spelled fun t ht => ?_
  obtain ⟨source, hsource⟩ := h.scanned t ht
  exact Tokens.word_of_mem hsource (h.endFree t ht)

/-- Expressions that print the same text are the same tree, but for the places of their tokens. -/
theorem alike_of_printed {ts' : List Token} {last last' : Token} {e' : Expr Unit}
    (h : ReadAs ts last e) (h' : ReadAs ts' last' e') (hdefinite : e.Definite)
    (hdefinite' : e'.Definite) (htext : e.text = e'.text) :
    e.Alike Token.SameText (fun _ _ => True) e' :=
  Expr.alike_of_text h.spelled h'.spelled hdefinite hdefinite' htext

/-- The tokens of `-a` and, on this line, of `- group(b)`. -/
def minusGroup (line : Nat) : List Token :=
  [⟨.punct .minus, "-", 1, 0⟩, ⟨.identifier, "a", 1, 1⟩, ⟨.punct .minus, "-", line, 3⟩,
    ⟨.identifier, "group", line, 5⟩, ⟨.punct .leftParen, "(", line, 10⟩,
    ⟨.identifier, "b", line, 11⟩, ⟨.punct .rightParen, ")", line, 12⟩]

def minusGroupTree (line : Nat) : Expr Unit :=
  .binary (.unary ⟨.punct .minus, "-", 1, 0⟩ (.var () ⟨.identifier, "a", 1, 1⟩))
    ⟨.punct .minus, "-", line, 3⟩
    (.call (.var () ⟨.identifier, "group", line, 5⟩) ⟨.punct .rightParen, ")", line, 12⟩
      [.var () ⟨.identifier, "b", line, 11⟩])

/-- The parenthesized negation is read from its tokens on any line. -/
theorem readAs_minusGroup {source : String} {line : Nat}
    (h : (Tokens.ofString source).tokens = minusGroup line ++ [.atEnd line 13]) :
    ReadAs (minusGroup line) (.atEnd line 13) (minusGroupTree line) := by
  have hreply : wholeExpression (minusGroup line ++ [.atEnd line 13]) =
      ⟨some (minusGroupTree line), [], [.atEnd line 13]⟩ := by cbv
  refine ⟨fun t ht => ⟨source, h ▸ List.mem_append_left _ ht⟩, ?_, rfl, ?_, ?_⟩
  · simp [minusGroup, Token.isEnd]
  · rw [hreply]
  · rw [hreply]

/-- Both minus signs, and a function with the name of a head, on one line and on two. -/
theorem alike_of_printed_minusGroup :
    (minusGroupTree 1).text = "(- (- a) (call group b))" ∧
      (minusGroupTree 1).Alike Token.SameText (fun _ _ => True) (minusGroupTree 2) := by
  have hone : ReadAs (minusGroup 1) (.atEnd 1 13) (minusGroupTree 1) :=
    @readAs_minusGroup "-a - group(b)" 1 rfl
  have htwo : ReadAs (minusGroup 2) (.atEnd 2 13) (minusGroupTree 2) :=
    @readAs_minusGroup "-a\n- group(b)" 2 rfl
  have hdefinite (line : Nat) : (minusGroupTree line).Definite :=
    ⟨trivial, trivial, trivial, trivial⟩
  exact ⟨rfl, alike_of_printed hone htwo (hdefinite 1) (hdefinite 2) rfl⟩

end Lox.Grammar

import Lox.Proofs.Grammar.Else
import Lox.Proofs.Grammar.Statement.Completeness
import Lox.Proofs.Grammar.Statement.Soundness
import Lox.Proofs.Token.Ending

namespace Lox.Grammar

open Rule

variable {n : Nat} {ts us rest : List Token} {last : Token}

theorem endFree_flatMap_tokens {parts : List Part} (h : ∀ part ∈ parts, EndFree part.tokens) :
    EndFree (parts.flatMap Part.tokens) := by
  intro t ht
  obtain ⟨part, hpart, htokens⟩ := List.mem_flatMap.mp ht
  exact h part hpart t htokens

theorem not_isEnd_of_isPunct {p : Punct} {t : Token} (h : t.isPunct p) : t.isEnd = false := by
  simp [Token.isEnd, Token.isPunct_iff.mp h]

theorem not_isEnd_of_isKeyword {k : Keyword} {t : Token} (h : t.isKeyword k) : t.isEnd = false := by
  simp [Token.isEnd, Token.isKeyword_iff.mp h]

theorem not_isEnd_of_isIdentifier {t : Token} (h : t.isIdentifier) : t.isEnd = false := by
  simp [Token.isEnd, Token.isIdentifier_iff.mp h]

/-- No operator is the end. -/
theorem not_isEnd_of_isOperator {t : Tier} {token : Token} (h : t.isOperator token) :
    token.isEnd = false := by
  have hstrength := Tier.isOperator_iff.mp h
  rw [← Bool.not_eq_true]
  intro hend
  have hkind : token.kind = .eof := by
    unfold Token.isEnd at hend
    split at hend <;> simp_all
  cases t <;> simp [strength, hkind, Phrase.level] at hstrength

theorem Separated.endFree {pieces : List (List Token)} (h : Separated pieces ts)
    (hpieces : ∀ piece ∈ pieces, EndFree piece) : EndFree ts := by
  induction h with
  | none => simp
  | one => simpa using hpieces
  | more hcomma _ ih =>
    rw [List.forall_mem_cons] at hpieces
    rw [endFree_append, endFree_cons]
    exact ⟨hpieces.1, not_isEnd_of_isPunct hcomma, ih hpieces.2⟩

/-- No sentence has an end in it. -/
theorem Phrase.Derives.endFree {p : Phrase} {e : Expr Unit} (h : p.Derives ts e) :
    EndFree ts := by
  induction h with
  | assignment hname hequals _ ih =>
    simp only [endFree_cons]
    exact ⟨not_isEnd_of_isIdentifier hname, not_isEnd_of_isPunct hequals, ih⟩
  | disjunction _ ih | operand _ ih | unsigned _ ih | callee _ ih => exact ih
  | operation _ hoperator _ ihleft ihright =>
    rw [endFree_append, endFree_cons]
    exact ⟨ihleft, not_isEnd_of_isOperator hoperator, ihright⟩
  | signed hoperator _ ih =>
    rw [endFree_cons]
    rw [Bool.or_eq_true] at hoperator
    exact ⟨hoperator.elim not_isEnd_of_isPunct not_isEnd_of_isPunct, ih⟩
  | application _ hopen _ hseparated _ hclose ih ihparts =>
    simp only [endFree_append, endFree_cons, endFree_nil, and_true]
    refine ⟨ih, not_isEnd_of_isPunct hopen, hseparated.endFree ?_, not_isEnd_of_isPunct hclose⟩
    simpa using fun piece e hpart => ihparts (piece, e) hpart
  | falsity h | truth h | nil h =>
    rw [endFree_singleton]
    exact not_isEnd_of_isKeyword h
  | number h | string h =>
    rw [endFree_singleton]
    simp [Token.isEnd, h]
  | «variable» hname =>
    rw [endFree_singleton]
    exact not_isEnd_of_isIdentifier hname
  | grouping hopen _ hclose ih =>
    simp only [endFree_append, endFree_cons, endFree_nil, and_true]
    exact ⟨not_isEnd_of_isPunct hopen, ih, not_isEnd_of_isPunct hclose⟩

theorem DerivesOptional.endFree {value : Option (Expr Unit)} (h : DerivesOptional ts value) :
    EndFree ts := by
  cases h with
  | absent => simp
  | present h => exact h.endFree

theorem DerivesVariable.endFree {s : Stmt Unit} (h : DerivesVariable ts s) :
    EndFree ts := by
  cases h with
  | plain hname hsemicolon =>
    simp only [endFree_cons, endFree_nil, and_true]
    exact ⟨not_isEnd_of_isIdentifier hname, not_isEnd_of_isPunct hsemicolon⟩
  | initialized hname hequals h hsemicolon =>
    simp only [endFree_append, endFree_cons, endFree_nil, and_true]
    exact ⟨not_isEnd_of_isIdentifier hname, not_isEnd_of_isPunct hequals, h.endFree,
      not_isEnd_of_isPunct hsemicolon⟩

theorem DerivesInitializer.endFree {initializer : Option (Stmt Unit)}
    (h : DerivesInitializer ts initializer) : EndFree ts := by
  cases h with
  | absent hsemicolon =>
    rw [endFree_singleton]
    exact not_isEnd_of_isPunct hsemicolon
  | «variable» hkeyword h =>
    rw [endFree_cons]
    exact ⟨not_isEnd_of_isKeyword hkeyword, h.endFree⟩
  | expression h hsemicolon =>
    simp only [endFree_append, endFree_cons, endFree_nil, and_true]
    exact ⟨h.endFree, not_isEnd_of_isPunct hsemicolon⟩

/-- No sentence has an end inside itself. -/
theorem Category.Derives.endFree {nearest dangling : Bool} {c : Category} {s : Stmt Unit}
    (h : c.Derives nearest ts s dangling) : EndFree ts := by
  induction h with
  | function hkeyword hname hopen hparams _ hseparated hclose hopenBrace _ hcloseBrace ih =>
    simp only [endFree_append, endFree_cons, endFree_nil, and_true]
    refine ⟨not_isEnd_of_isKeyword hkeyword, not_isEnd_of_isIdentifier hname,
      not_isEnd_of_isPunct hopen, hseparated.endFree ?_, not_isEnd_of_isPunct hclose,
      not_isEnd_of_isPunct hopenBrace, endFree_flatMap_tokens ih,
      not_isEnd_of_isPunct hcloseBrace⟩
    simpa using fun p hp => not_isEnd_of_isIdentifier (hparams p hp)
  | «variable» hkeyword h =>
    rw [endFree_cons]
    exact ⟨not_isEnd_of_isKeyword hkeyword, h.endFree⟩
  | statement _ ih => exact ih
  | expression h hsemicolon =>
    simp only [endFree_append, endFree_cons, endFree_nil, and_true]
    exact ⟨h.endFree, not_isEnd_of_isPunct hsemicolon⟩
  | print hkeyword h hsemicolon | «return» hkeyword h hsemicolon =>
    simp only [endFree_append, endFree_cons, endFree_nil, and_true]
    exact ⟨not_isEnd_of_isKeyword hkeyword, h.endFree, not_isEnd_of_isPunct hsemicolon⟩
  | block hopen _ hclose ih =>
    simp only [endFree_append, endFree_cons, endFree_nil, and_true]
    exact ⟨not_isEnd_of_isPunct hopen, endFree_flatMap_tokens ih, not_isEnd_of_isPunct hclose⟩
  | ifThen hkeyword hopen hcondition hclose _ ih | «while» hkeyword hopen hcondition hclose _ ih =>
    simp only [endFree_append, endFree_cons]
    exact ⟨not_isEnd_of_isKeyword hkeyword, not_isEnd_of_isPunct hopen, hcondition.endFree,
      not_isEnd_of_isPunct hclose, ih⟩
  | ifElse hkeyword hopen hcondition hclose _ _ helse _ ihthen ihother =>
    simp only [endFree_append, endFree_cons]
    exact ⟨not_isEnd_of_isKeyword hkeyword, not_isEnd_of_isPunct hopen, hcondition.endFree,
      not_isEnd_of_isPunct hclose, ihthen, not_isEnd_of_isKeyword helse, ihother⟩
  | «for» hkeyword hopen hfirst hcondition hsemicolon hincrement hclose _ ih =>
    simp only [endFree_append, endFree_cons]
    exact ⟨not_isEnd_of_isKeyword hkeyword, not_isEnd_of_isPunct hopen, hfirst.endFree,
      hcondition.endFree, not_isEnd_of_isPunct hsemicolon, hincrement.endFree,
      not_isEnd_of_isPunct hclose, ih⟩

/-- A reading of declarations stops at the end or at a closing token, not for lack of tokens. -/
theorem declarations_stop {nested : Rule (Stmt Unit)} {closed : Token → Bool}
    {ss : List (Stmt Unit)} (hloud : nested.Loud) (hnested : Category.declaration.Sound nested)
    (h : (declarations nested closed n).Reads ts ss rest) (hn : ts.length ≤ n) :
    ((front rest).isEnd || closed (front rest)) = true := by
  induction n generalizing ts ss with
  | zero =>
    obtain ⟨-, rfl⟩ := reads_pure_iff.mp h
    obtain rfl := List.eq_nil_of_length_eq_zero (Nat.le_zero.mp hn)
    rfl
  | succ n ih =>
    obtain ⟨hstop, -, rfl⟩ | ⟨-, s, middle, others, hs, hothers, -⟩ :=
      (reads_declarations_succ_iff hloud).mp h
    · exact hstop
    · obtain ⟨taken, dangling, rfl, hderives, -⟩ := hnested hs
      obtain ⟨t, us, rfl, -⟩ := hderives.exists_first
      simp only [List.cons_append, List.length_cons, List.length_append] at hn
      exact ih hothers (by omega)

/-- The end is the only place at which a sentence that takes nothing of it can stop. -/
theorem eq_of_append_end (hts : EndFree ts) (hlast : last.isEnd)
    (hus : EndFree us) (hrest : (front rest).isEnd)
    (h : ts ++ [last] = us ++ rest) : ts = us ∧ rest = [last] := by
  rcases List.eq_nil_or_concat rest with rfl | ⟨rest, t, rfl⟩
  · have hmem : last ∈ us := by
      rw [List.append_nil] at h
      simp [← h]
    rw [hus last hmem] at hlast
    cases hlast
  · rw [List.concat_eq_append, ← List.append_assoc] at h
    obtain ⟨rfl, hlasts⟩ := List.append_inj' h rfl
    cases rest with
    | nil => simpa using hlasts.symm
    | cons u rest =>
      rw [List.concat_eq_append, List.cons_append, front, hts u (by simp)] at hrest
      cases hrest

/-- A program without errors is the derivation of its tokens. -/
theorem program_sound (hts : EndFree ts) (hlast : last.isEnd)
    (h : (program (ts ++ [last])).errors = []) :
    DerivesProgram true ts (program (ts ++ [last])).statements := by
  generalize hn : (ts ++ [last]).length = n
  obtain ⟨ss, rest, hreads⟩ : ∃ ss rest,
      (declarations (declaration n) (fun _ => false) n).Reads (ts ++ [last]) ss rest := by
    cases hresult : (declarations (declaration n) (fun _ => false) n (ts ++ [last])).result with
    | none => exact absurd hresult (declarations_ne_none _ _ _ _)
    | some ss =>
      refine ⟨ss, (declarations (declaration n) (fun _ => false) n (ts ++ [last])).rest, ?_⟩
      rw [program, hn] at h
      rw [Reads, ← hresult, ← h]
  have hstop := declarations_stop (loud_declaration n) (statement_declaration_sound n).2 hreads
    (Nat.le_of_eq hn)
  obtain ⟨parts, htokens, rfl, hparts⟩ := declarations_sound (loud_declaration n)
    (statement_declaration_sound n).2 hreads
  obtain ⟨rfl, -⟩ := eq_of_append_end hts hlast
    (endFree_flatMap_tokens fun part hpart => (hparts part hpart).endFree)
    (by simpa using hstop) htokens
  refine ⟨parts, rfl, ?_, hparts⟩
  rw [program, hn, hreads]
  rfl

/-- Every program that can be derived is read without errors, and as its tree. -/
theorem program_complete {ss : List (Stmt Unit)} (h : DerivesProgram true ts ss)
    (hlast : last.isEnd) : program (ts ++ [last]) = ⟨ss, [], [last]⟩ := by
  obtain ⟨parts, rfl, rfl, hparts⟩ := h
  generalize hn : (parts.flatMap Part.tokens ++ [last]).length = n
  have hreads : (declarations (declaration n) (fun _ => false) n).Reads
      (parts.flatMap Part.tokens ++ [last]) (parts.map Part.tree) [last] := by
    refine declarations_complete (fun part hpart => (hparts part hpart).complete) ?_ ?_ ?_ ?_
      (Nat.le_of_eq hn) ?_
    · intro part hpart
      obtain ⟨t, us, htokens, hstart, -⟩ := (hparts part hpart).exists_first
      exact ⟨t, us, htokens, hstart⟩
    · simp
    · simpa [front] using hlast
    · rw [← Bool.not_eq_true, front]
      intro helse
      rw [not_isEnd_of_isKeyword helse] at hlast
      cases hlast
    · rw [List.length_append] at hn
      omega
  rw [program, hn, hreads]
  rfl

/-- The end binds nothing. -/
theorem strength_of_isEnd (hlast : last.isEnd) : strength last = 0 := by
  unfold Token.isEnd at hlast
  unfold strength
  split at hlast
  · rename_i hkind
    simp [hkind]
  · cases hlast

/-- A whole expression is an expression with the end behind it. -/
theorem reads_wholeExpression_iff {e : Expr Unit} :
    (do
      let e ← expression n
      if (← peek).isEnd then pure e else fail (.expected .endOfExpression) :
        Rule _).Reads ts e rest ↔ (expression n).Reads ts e rest ∧ (front rest).isEnd := by
  simp only [reads_bind_iff, reads_peek_iff, reads_ite_iff, reads_pure_iff, not_reads_fail]
  constructor
  · rintro ⟨e, middle, he, _, _, ⟨rfl, rfl⟩, ⟨hend, rfl, rfl⟩ | ⟨-, h⟩⟩
    · exact ⟨he, hend⟩
    · exact h.elim
  · rintro ⟨he, hend⟩
    exact ⟨e, rest, he, _, _, ⟨rfl, rfl⟩, .inl ⟨hend, rfl, rfl⟩⟩

/-- A whole expression without errors has a tree, and is the derivation of its tokens. -/
theorem wholeExpression_sound (hts : EndFree ts) (hlast : last.isEnd)
    (h : (wholeExpression (ts ++ [last])).errors = []) :
    ∃ e, (wholeExpression (ts ++ [last])).result = some e ∧ Phrase.expression.Derives ts e := by
  have hloud : (do
      let e ← expression (ts ++ [last]).length
      if (← peek).isEnd then pure e else fail (.expected .endOfExpression) : Rule _).Loud := by
    refine (loud_expression _).bind fun e => loud_peek.bind fun t => ?_
    split
    · exact loud_pure _
    · exact loud_fail _
  cases hresult : (wholeExpression (ts ++ [last])).result with
  | none => exact absurd h (hloud _ hresult)
  | some e =>
    have hreads : (expression (ts ++ [last]).length).Reads (ts ++ [last]) e
        (wholeExpression (ts ++ [last])).rest ∧
        (front (wholeExpression (ts ++ [last])).rest).isEnd :=
      reads_wholeExpression_iff.mp (by rw [Reads, ← hresult, ← h]; rfl)
    obtain ⟨taken, htaken, hderives⟩ := expression_sound _ hreads.1
    obtain ⟨rfl, -⟩ := eq_of_append_end hts hlast hderives.endFree hreads.2 htaken
    exact ⟨e, rfl, hderives⟩

/-- Every sentence of an expression is read as a whole, and nothing is reported. -/
theorem wholeExpression_complete {e : Expr Unit} (h : Phrase.expression.Derives ts e)
    (hlast : last.isEnd) : wholeExpression (ts ++ [last]) = ⟨some e, [], [last]⟩ :=
  reads_wholeExpression_iff.mpr
    ⟨expression_complete h (Nat.le_refl _) (strength_of_isEnd hlast), hlast⟩

/-- The readers accept exactly the sentences of the grammar, whichever `if` an `else` is given to
    there, and find the tree of the one derivation that gives it to the nearest. -/
theorem reads_exactly_derivable (hts : EndFree ts) (hlast : last.isEnd) :
    ((program (ts ++ [last])).errors = [] ↔ ∃ ss, DerivesProgram false ts ss) ∧
    (∀ ss, (program (ts ++ [last])).errors = [] ∧ (program (ts ++ [last])).statements = ss ↔
      DerivesProgram true ts ss) ∧
    ((wholeExpression (ts ++ [last])).errors = [] ↔ ∃ e, Phrase.expression.Derives ts e) ∧
    ∀ e, (wholeExpression (ts ++ [last])).errors = [] ∧
        (wholeExpression (ts ++ [last])).result = some e ↔ Phrase.expression.Derives ts e := by
  refine ⟨⟨fun h => ?_, ?_⟩, fun ss => ⟨?_, fun h => ?_⟩, ⟨fun h => ?_, ?_⟩,
    fun e => ⟨?_, fun h => ?_⟩⟩
  · exact ⟨_, (program_sound hts hlast h).weaken⟩
  · rintro ⟨ss, h⟩
    obtain ⟨ss', hnearest⟩ := h.exists_nearest
    rw [program_complete hnearest hlast]
  · rintro ⟨herrors, rfl⟩
    exact program_sound hts hlast herrors
  · rw [program_complete h hlast]
    exact ⟨rfl, rfl⟩
  · obtain ⟨e, -, hderives⟩ := wholeExpression_sound hts hlast h
    exact ⟨e, hderives⟩
  · rintro ⟨e, h⟩
    rw [wholeExpression_complete h hlast]
  · rintro ⟨herrors, hresult⟩
    obtain ⟨e', he', hderives⟩ := wholeExpression_sound hts hlast herrors
    rw [he', Option.some.injEq] at hresult
    exact hresult ▸ hderives
  · rw [wholeExpression_complete h hlast]
    exact ⟨rfl, rfl⟩

/-- The sentence with which the question of the dangling `else` is asked. -/
def danglingElse : List Token :=
  [⟨.keyword .if, "if", 1, 0⟩, ⟨.punct .leftParen, "(", 1, 3⟩, ⟨.identifier, "a", 1, 4⟩,
    ⟨.punct .rightParen, ")", 1, 5⟩, ⟨.keyword .if, "if", 1, 7⟩, ⟨.punct .leftParen, "(", 1, 10⟩,
    ⟨.identifier, "b", 1, 11⟩, ⟨.punct .rightParen, ")", 1, 12⟩, ⟨.identifier, "c", 1, 14⟩,
    ⟨.punct .semicolon, ";", 1, 15⟩, ⟨.keyword .else, "else", 1, 17⟩, ⟨.identifier, "d", 1, 22⟩,
    ⟨.punct .semicolon, ";", 1, 23⟩]

/-- The `else` behind two conditionals belongs to the inner one. -/
theorem danglingElse_derives :
    DerivesProgram true danglingElse
      [.if (.var () ⟨.identifier, "a", 1, 4⟩)
        (.if (.var () ⟨.identifier, "b", 1, 11⟩)
          (.expression (.var () ⟨.identifier, "c", 1, 14⟩))
          (some (.expression (.var () ⟨.identifier, "d", 1, 22⟩)))) none] := by
  have hts : EndFree danglingElse := by simp [danglingElse, Token.isEnd]
  have hlast : (Token.atEnd 1 24).isEnd := rfl
  exact ((reads_exactly_derivable hts hlast).2.1 _).mp ⟨rfl, rfl⟩

end Lox.Grammar

import Lox.Proofs.Grammar.Relocation

namespace Lox.Grammar

/-- Tokens may be replaced by these others, which have the same kinds, and they may be kept. -/
structure Replaces (R : Token → Token → Prop) : Prop where
  kind : ∀ {t t'}, R t t' → t'.kind = t.kind
  refl : ∀ t, R t t

variable {R : Token → Token → Prop} {ts : List Token}

/-- Pieces that are replaced one by one are still separated by the same commas. -/
theorem Separated.replace {pieces pieces' : List (List Token)} (h : Separated pieces ts)
    (hR : Replaces R) (hpieces : List.Forall₂ (List.Forall₂ R) pieces pieces') :
    ∃ ts', List.Forall₂ R ts ts' ∧ Separated pieces' ts' := by
  induction h generalizing pieces' with
  | none =>
    cases hpieces
    exact ⟨[], .nil, .none⟩
  | one =>
    cases hpieces with
    | cons hfirst hrest =>
      cases hrest
      exact ⟨_, hfirst, .one⟩
  | more hcomma _ ih =>
    cases hpieces with
    | cons hfirst hrest =>
      obtain ⟨ts', hts, hseparated⟩ := ih hrest
      cases hrest with
      | cons hsecond hrest =>
        exact ⟨_, List.rel_append hfirst (.cons (hR.refl _) hts), .more hcomma hseparated⟩

/-- The arguments of a call when tokens in their trees are replaced. -/
theorem exists_replaced_arguments {parts : List (List Token × Expr Unit)} {es : List (Expr Unit)}
    (h : ∀ part ∈ parts, ∀ e', part.2.Alike R (fun _ _ => True) e' →
      ∃ ts', List.Forall₂ R part.1 ts' ∧ Phrase.expression.Derives ts' e')
    (halike : Expr.AlikeAll R (fun _ _ => True) (parts.map Prod.snd) es) :
    ∃ parts' : List (List Token × Expr Unit), parts'.map Prod.snd = es ∧
      List.Forall₂ (List.Forall₂ R) (parts.map Prod.fst) (parts'.map Prod.fst) ∧
      ∀ part ∈ parts', Phrase.expression.Derives part.1 part.2 := by
  induction parts generalizing es with
  | nil =>
    cases halike
    exact ⟨[], rfl, .nil, by simp⟩
  | cons part parts ih =>
    rw [List.forall_mem_cons] at h
    cases halike with
    | cons hfirst hrest =>
      obtain ⟨ts', hts, hderives⟩ := h.1 _ hfirst
      obtain ⟨parts', rfl, hpieces, hparts⟩ := ih h.2 hrest
      exact ⟨(ts', _) :: parts', rfl, .cons hts hpieces,
        List.forall_mem_cons.mpr ⟨hderives, hparts⟩⟩

/-- A node between two operands, taken apart. -/
theorem Tier.exists_of_alike {t : Tier} {left right e' : Expr Unit} {operator : Token}
    (h : (t.node left operator right).Alike R (fun _ _ => True) e') :
    ∃ left' operator' right', e' = t.node left' operator' right' ∧ R operator operator' ∧
      left.Alike R (fun _ _ => True) left' ∧ right.Alike R (fun _ _ => True) right' := by
  cases t with
  | disjunction | conjunction =>
    cases h with
    | logical hleft hoperator hright => exact ⟨_, _, _, rfl, hoperator, hleft, hright⟩
  | _ =>
    cases h with
    | binary hleft hoperator hright => exact ⟨_, _, _, rfl, hoperator, hleft, hright⟩

/-- An expression has a sentence for every tree in which its tokens are replaced. -/
theorem Phrase.Derives.replace {p : Phrase} {e e' : Expr Unit} (h : p.Derives ts e)
    (hR : Replaces R) (halike : e.Alike R (fun _ _ => True) e') :
    ∃ ts', List.Forall₂ R ts ts' ∧ p.Derives ts' e' := by
  induction h generalizing e' with
  | assignment hname hequals _ ih =>
    cases halike with
    | assign _ hassigned hvalue =>
      obtain ⟨ts', hts, hderives⟩ := ih hvalue
      exact ⟨_, .cons hassigned (.cons (hR.refl _) hts),
        .assignment (Token.isIdentifier_of_kind (hR.kind hassigned) hname) hequals hderives⟩
  | disjunction _ ih =>
    obtain ⟨ts', hts, hderives⟩ := ih halike
    exact ⟨ts', hts, .disjunction hderives⟩
  | operand _ ih =>
    obtain ⟨ts', hts, hderives⟩ := ih halike
    exact ⟨ts', hts, .operand hderives⟩
  | operation _ hoperator _ ihleft ihright =>
    obtain ⟨left', operator', right', rfl, hreplaced, hleft, hright⟩ := Tier.exists_of_alike halike
    obtain ⟨ts', hts, hderives⟩ := ihleft hleft
    obtain ⟨us', hus, hderives'⟩ := ihright hright
    exact ⟨_, List.rel_append hts (.cons hreplaced hus),
      .operation hderives (Token.isOperator_of_kind (hR.kind hreplaced) hoperator) hderives'⟩
  | signed hoperator _ ih =>
    cases halike with
    | unary hreplaced hoperand =>
      obtain ⟨ts', hts, hderives⟩ := ih hoperand
      refine ⟨_, .cons hreplaced hts, .signed ?_ hderives⟩
      rw [Bool.or_eq_true] at hoperator ⊢
      have hkind := hR.kind hreplaced
      exact hoperator.imp (Token.isPunct_of_kind hkind) (Token.isPunct_of_kind hkind)
  | unsigned _ ih =>
    obtain ⟨ts', hts, hderives⟩ := ih halike
    exact ⟨ts', hts, .unsigned hderives⟩
  | callee _ ih =>
    obtain ⟨ts', hts, hderives⟩ := ih halike
    exact ⟨ts', hts, .callee hderives⟩
  | application _ hopen _ hseparated hlimit hclose ihcallee ihparts =>
    cases halike with
    | call hcallee hparen harguments =>
      obtain ⟨ts', hts, hderives⟩ := ihcallee hcallee
      obtain ⟨parts', rfl, hpieces, hparts⟩ :=
        exists_replaced_arguments (fun part hpart _ => ihparts part hpart) harguments
      obtain ⟨us', hus, hseparated'⟩ := hseparated.replace hR hpieces
      have hlength := hpieces.length_eq
      rw [List.length_map, List.length_map] at hlength
      rw [hlength] at hlimit
      exact ⟨_, List.rel_append hts (.cons (hR.refl _)
          (List.rel_append hus (.cons hparen .nil))),
        .application hderives hopen hparts hseparated' hlimit
          (Token.isPunct_of_kind (hR.kind hparen) hclose)⟩
  | falsity h =>
    cases halike
    exact ⟨_, .cons (hR.refl _) .nil, .falsity h⟩
  | truth h =>
    cases halike
    exact ⟨_, .cons (hR.refl _) .nil, .truth h⟩
  | nil h =>
    cases halike
    exact ⟨_, .cons (hR.refl _) .nil, .nil h⟩
  | number h =>
    cases halike
    exact ⟨_, .cons (hR.refl _) .nil, .number h⟩
  | string h =>
    cases halike
    exact ⟨_, .cons (hR.refl _) .nil, .string h⟩
  | «variable» hname =>
    cases halike with
    | var _ hreplaced =>
      exact ⟨_, .cons hreplaced .nil,
        .variable (Token.isIdentifier_of_kind (hR.kind hreplaced) hname)⟩
  | grouping hopen _ hclose ih =>
    cases halike with
    | grouping hinner =>
      obtain ⟨ts', hts, hderives⟩ := ih hinner
      exact ⟨_, .cons (hR.refl _) (List.rel_append hts (.cons (hR.refl _) .nil)),
        .grouping hopen hderives hclose⟩

theorem DerivesOptional.replace {value value' : Option (Expr Unit)} (h : DerivesOptional ts value)
    (hR : Replaces R) (halike : Option.Rel (Expr.Alike R fun _ _ => True) value value') :
    ∃ ts', List.Forall₂ R ts ts' ∧ DerivesOptional ts' value' := by
  cases h with
  | absent =>
    cases halike
    exact ⟨[], .nil, .absent⟩
  | present h =>
    cases halike with
    | some halike =>
      obtain ⟨ts', hts, hderives⟩ := h.replace hR halike
      exact ⟨ts', hts, .present hderives⟩

/-- A variable declaration has a sentence for every tree in which its tokens are replaced. -/
theorem DerivesVariable.replace {s s' : Stmt Unit} (h : DerivesVariable ts s) (hR : Replaces R)
    (halike : s.Alike R (fun _ _ => True) s') :
    ∃ ts', List.Forall₂ R ts ts' ∧ DerivesVariable ts' s' := by
  cases h with
  | plain hname hsemicolon =>
    cases halike with
    | declared hreplaced =>
      exact ⟨_, .cons hreplaced (.cons (hR.refl _) .nil),
        .plain (Token.isIdentifier_of_kind (hR.kind hreplaced) hname) hsemicolon⟩
  | initialized hname hequals h hsemicolon =>
    cases halike with
    | initialized hreplaced halike =>
      obtain ⟨ts', hts, hderives⟩ := h.replace hR halike
      exact ⟨_, .cons hreplaced (.cons (hR.refl _) (List.rel_append hts (.cons (hR.refl _) .nil))),
        .initialized (Token.isIdentifier_of_kind (hR.kind hreplaced) hname) hequals hderives
          hsemicolon⟩

theorem DerivesInitializer.replace {first first' : Option (Stmt Unit)}
    (h : DerivesInitializer ts first) (hR : Replaces R)
    (halike : Option.Rel (Stmt.Alike R fun _ _ => True) first first') :
    ∃ ts', List.Forall₂ R ts ts' ∧ DerivesInitializer ts' first' := by
  cases h with
  | absent hsemicolon =>
    cases halike
    exact ⟨_, .cons (hR.refl _) .nil, .absent hsemicolon⟩
  | «variable» hkeyword h =>
    cases halike with
    | some halike =>
      obtain ⟨ts', hts, hderives⟩ := h.replace hR halike
      exact ⟨_, .cons (hR.refl _) hts, .variable hkeyword hderives⟩
  | expression h hsemicolon =>
    cases halike with
    | some halike =>
      cases halike with
      | expression halike =>
        obtain ⟨ts', hts, hderives⟩ := h.replace hR halike
        exact ⟨_, List.rel_append hts (.cons (hR.refl _) .nil), .expression hderives hsemicolon⟩

section Loops

/-! A loop whose tokens are replaced is a loop with the same clauses. -/

variable {first : Option (Stmt Unit)} {condition increment : Option (Expr Unit)}
  {s s' : Stmt Unit}

theorem exists_of_alike_test {e' : Expr Unit}
    (h : (condition.getD (.literal (.bool true))).Alike R (fun _ _ => True) e') :
    ∃ condition', e' = condition'.getD (.literal (.bool true)) ∧
      Option.Rel (Expr.Alike R fun _ _ => True) condition condition' := by
  cases condition with
  | none =>
    cases h
    exact ⟨none, rfl, .none⟩
  | some e => exact ⟨some e', rfl, .some h⟩

/-- A tree that is like a loop is a loop, with a condition where there is one. -/
theorem exists_of_alike_while
    (h : (Stmt.while (condition.getD (.literal (.bool true))) s).Alike R (fun _ _ => True) s') :
    ∃ condition' t', s' = .while (condition'.getD (.literal (.bool true))) t' ∧
      Option.Rel (Expr.Alike R fun _ _ => True) condition condition' ∧
      s.Alike R (fun _ _ => True) t' := by
  cases h with
  | «while» hcondition hbody =>
    obtain ⟨condition', rfl, htest⟩ := exists_of_alike_test hcondition
    exact ⟨condition', _, rfl, htest, hbody⟩

/-- A tree that is like a loop with clauses is one with the same clauses. -/
theorem exists_of_alike_forLoop
    (h : (forLoop first condition increment s).Alike R (fun _ _ => True) s') :
    ∃ first' condition' increment' t', s' = forLoop first' condition' increment' t' ∧
      Option.Rel (Stmt.Alike R fun _ _ => True) first first' ∧
      Option.Rel (Expr.Alike R fun _ _ => True) condition condition' ∧
      Option.Rel (Expr.Alike R fun _ _ => True) increment increment' ∧
      s.Alike R (fun _ _ => True) t' := by
  have hloop (s : Stmt Unit)
      (hplain : (forLoop first condition none s).Alike R (fun _ _ => True) s') :
      ∃ first' condition' t', s' = forLoop first' condition' none t' ∧
        Option.Rel (Stmt.Alike R fun _ _ => True) first first' ∧
        Option.Rel (Expr.Alike R fun _ _ => True) condition condition' ∧
        s.Alike R (fun _ _ => True) t' := by
    cases first with
    | none =>
      obtain ⟨condition', t', rfl, hcondition, hbody⟩ := exists_of_alike_while hplain
      exact ⟨none, condition', t', rfl, .none, hcondition, hbody⟩
    | some first =>
      cases hplain with
      | block hblock =>
        cases hblock with
        | cons hfirst hrest =>
          cases hrest with
          | cons hwhile hrest =>
            cases hrest
            obtain ⟨condition', t', rfl, hcondition, hbody⟩ := exists_of_alike_while hwhile
            exact ⟨some _, condition', t', rfl, .some hfirst, hcondition, hbody⟩
  cases increment with
  | none =>
    obtain ⟨first', condition', t', rfl, hfirst, hcondition, hbody⟩ := hloop s h
    exact ⟨first', condition', none, t', rfl, hfirst, hcondition, .none, hbody⟩
  | some e =>
    obtain ⟨first', condition', t', rfl, hfirst, hcondition, hbody⟩ :=
      hloop (.block [s, .expression e]) h
    cases hbody with
    | block hbody =>
      cases hbody with
      | cons hbody hrest =>
        cases hrest with
        | cons hincrement hrest =>
          cases hrest
          cases hincrement with
          | expression hincrement =>
            exact ⟨first', condition', some _, _, rfl, hfirst, hcondition, .some hincrement, hbody⟩

end Loops

/-- The parts of a block or a program when tokens in their trees are replaced. -/
theorem exists_replaced_parts {nearest : Bool} {parts : List Part} {ss : List (Stmt Unit)}
    (h : ∀ part ∈ parts, ∀ s', part.tree.Alike R (fun _ _ => True) s' →
      ∃ ts', List.Forall₂ R part.tokens ts' ∧
        Category.declaration.Derives nearest ts' s' part.dangling)
    (halike : Stmt.AlikeAll R (fun _ _ => True) (parts.map Part.tree) ss) :
    ∃ parts' : List Part, parts'.map Part.tree = ss ∧
      List.Forall₂ R (parts.flatMap Part.tokens) (parts'.flatMap Part.tokens) ∧
      ∀ part ∈ parts',
        Category.declaration.Derives nearest part.tokens part.tree part.dangling := by
  induction parts generalizing ss with
  | nil =>
    cases halike
    exact ⟨[], rfl, .nil, by simp⟩
  | cons part parts ih =>
    rw [List.forall_mem_cons] at h
    cases halike with
    | cons hfirst hrest =>
      obtain ⟨ts', hts, hderives⟩ := h.1 _ hfirst
      obtain ⟨parts', rfl, htokens, hparts⟩ := ih h.2 hrest
      refine ⟨⟨ts', _, part.dangling⟩ :: parts', rfl, ?_,
        List.forall_mem_cons.mpr ⟨hderives, hparts⟩⟩
      rw [List.flatMap_cons, List.flatMap_cons]
      exact List.rel_append hts htokens

theorem exists_of_alike_return {keyword : Token} {value : Option (Expr Unit)} {s' : Stmt Unit}
    (h : (Stmt.return keyword value).Alike R (fun _ _ => True) s') :
    ∃ keyword' value', s' = .return keyword' value' ∧ R keyword keyword' ∧
      Option.Rel (Expr.Alike R fun _ _ => True) value value' := by
  cases h with
  | finished hkeyword => exact ⟨_, none, rfl, hkeyword, .none⟩
  | returned hkeyword h => exact ⟨_, some _, rfl, hkeyword, .some h⟩

/-- Parameters that are replaced are identifiers still. -/
theorem forall_isIdentifier_of_forall₂ {params params' : List Token} (hR : Replaces R)
    (h : List.Forall₂ R params params') (hparams : ∀ p ∈ params, p.isIdentifier) :
    ∀ p ∈ params', p.isIdentifier := by
  induction h with
  | nil => exact hparams
  | cons hfirst _ ih =>
    rw [List.forall_mem_cons] at hparams ⊢
    exact ⟨Token.isIdentifier_of_kind (hR.kind hfirst) hparams.1, ih hparams.2⟩

/-- A statement has a sentence for every tree in which its tokens are replaced. -/
theorem Category.Derives.replace {nearest dangling : Bool} {c : Category} {s s' : Stmt Unit}
    (h : c.Derives nearest ts s dangling) (hR : Replaces R)
    (halike : s.Alike R (fun _ _ => True) s') :
    ∃ ts', List.Forall₂ R ts ts' ∧ c.Derives nearest ts' s' dangling := by
  induction h generalizing s' with
  | function hkeyword hname hopen hparams hlimit hseparated hclose hopenBrace _ hcloseBrace ih =>
    cases halike with
    | function hnamed hparameters hbody =>
      obtain ⟨parts', rfl, htokens, hparts⟩ :=
        exists_replaced_parts (fun part hpart _ => ih part hpart) hbody
      obtain ⟨us', hus, hseparated'⟩ := hseparated.replace hR (List.forall₂_map_left_iff.mpr
        (List.forall₂_map_right_iff.mpr (hparameters.imp fun _ _ h => .cons h .nil)))
      rw [hparameters.length_eq] at hlimit
      refine ⟨_, ?_, .function hkeyword (Token.isIdentifier_of_kind (hR.kind hnamed) hname) hopen
        (forall_isIdentifier_of_forall₂ hR hparameters hparams) hlimit hseparated' hclose
        hopenBrace hparts hcloseBrace⟩
      exact .cons (hR.refl _) (.cons hnamed (.cons (hR.refl _) (List.rel_append hus
        (.cons (hR.refl _) (.cons (hR.refl _) (List.rel_append htokens
          (.cons (hR.refl _) .nil)))))))
  | «variable» hkeyword h =>
    obtain ⟨ts', hts, hderives⟩ := h.replace hR halike
    exact ⟨_, .cons (hR.refl _) hts, .variable hkeyword hderives⟩
  | statement _ ih =>
    obtain ⟨ts', hts, hderives⟩ := ih halike
    exact ⟨ts', hts, .statement hderives⟩
  | expression h hsemicolon =>
    cases halike with
    | expression halike =>
      obtain ⟨ts', hts, hderives⟩ := h.replace hR halike
      exact ⟨_, List.rel_append hts (.cons (hR.refl _) .nil), .expression hderives hsemicolon⟩
  | print hkeyword h hsemicolon =>
    cases halike with
    | print halike =>
      obtain ⟨ts', hts, hderives⟩ := h.replace hR halike
      exact ⟨_, .cons (hR.refl _) (List.rel_append hts (.cons (hR.refl _) .nil)),
        .print hkeyword hderives hsemicolon⟩
  | «return» hkeyword h hsemicolon =>
    obtain ⟨keyword', value', rfl, hreplaced, hvalue⟩ := exists_of_alike_return halike
    obtain ⟨ts', hts, hderives⟩ := h.replace hR hvalue
    exact ⟨_, .cons hreplaced (List.rel_append hts (.cons (hR.refl _) .nil)),
      .return (Token.isKeyword_of_kind (hR.kind hreplaced) hkeyword) hderives hsemicolon⟩
  | block hopen _ hclose ih =>
    cases halike with
    | block hbody =>
      obtain ⟨parts', rfl, htokens, hparts⟩ :=
        exists_replaced_parts (fun part hpart _ => ih part hpart) hbody
      exact ⟨_, .cons (hR.refl _) (List.rel_append htokens (.cons (hR.refl _) .nil)),
        .block hopen hparts hclose⟩
  | ifThen hkeyword hopen hcondition hclose _ ih =>
    cases halike with
    | ifThen halike hthen =>
      obtain ⟨ts', hts, hderives⟩ := hcondition.replace hR halike
      obtain ⟨us', hus, hderives'⟩ := ih hthen
      exact ⟨_, .cons (hR.refl _) (.cons (hR.refl _) (List.rel_append hts
          (.cons (hR.refl _) hus))),
        .ifThen hkeyword hopen hderives hclose hderives'⟩
  | ifElse hkeyword hopen hcondition hclose _ hnearest helse _ ihthen ihother =>
    cases halike with
    | ifElse halike hthen hother =>
      obtain ⟨ts', hts, hderives⟩ := hcondition.replace hR halike
      obtain ⟨us', hus, hderives'⟩ := ihthen hthen
      obtain ⟨vs', hvs, hderives''⟩ := ihother hother
      exact ⟨_, .cons (hR.refl _) (.cons (hR.refl _) (List.rel_append hts
          (.cons (hR.refl _) (List.rel_append hus (.cons (hR.refl _) hvs))))),
        .ifElse hkeyword hopen hderives hclose hderives' hnearest helse hderives''⟩
  | «while» hkeyword hopen hcondition hclose _ ih =>
    cases halike with
    | «while» halike hbody =>
      obtain ⟨ts', hts, hderives⟩ := hcondition.replace hR halike
      obtain ⟨us', hus, hderives'⟩ := ih hbody
      exact ⟨_, .cons (hR.refl _) (.cons (hR.refl _) (List.rel_append hts
          (.cons (hR.refl _) hus))),
        .while hkeyword hopen hderives hclose hderives'⟩
  | «for» hkeyword hopen hfirst hcondition hsemicolon hincrement hclose _ ih =>
    obtain ⟨first', condition', increment', t', rfl, halikeFirst, halikeCondition,
      halikeIncrement, hbody⟩ := exists_of_alike_forLoop halike
    obtain ⟨firsts', hfirsts, hderivesFirst⟩ := hfirst.replace hR halikeFirst
    obtain ⟨ts', hts, hderivesCondition⟩ := hcondition.replace hR halikeCondition
    obtain ⟨us', hus, hderivesIncrement⟩ := hincrement.replace hR halikeIncrement
    obtain ⟨vs', hvs, hderives⟩ := ih hbody
    exact ⟨_, .cons (hR.refl _) (.cons (hR.refl _) (List.rel_append hfirsts (List.rel_append hts
        (.cons (hR.refl _) (List.rel_append hus (.cons (hR.refl _) hvs)))))),
      .for hkeyword hopen hderivesFirst hderivesCondition hsemicolon hderivesIncrement hclose
        hderives⟩

/-- A program whose tree has other tokens, of the same kinds, is the program of the sentence with
    these tokens. -/
theorem DerivesProgram.replace {nearest : Bool} {ss ss' : List (Stmt Unit)}
    (h : DerivesProgram nearest ts ss) (hR : Replaces R)
    (halike : Stmt.AlikeAll R (fun _ _ => True) ss ss') :
    ∃ ts', List.Forall₂ R ts ts' ∧ DerivesProgram nearest ts' ss' := by
  obtain ⟨parts, rfl, rfl, hparts⟩ := h
  obtain ⟨parts', rfl, htokens, hparts'⟩ :=
    exists_replaced_parts (fun part hpart _ halike => (hparts part hpart).replace hR halike) halike
  exact ⟨_, htokens, parts', rfl, rfl, hparts'⟩

end Lox.Grammar

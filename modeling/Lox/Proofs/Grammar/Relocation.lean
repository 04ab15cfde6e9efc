import Lox.Proofs.Grammar.Derivation
import Lox.Proofs.Scoping.Alike

namespace Lox

section Kind

/-! The grammar tells tokens apart by their kinds. -/

variable {t t' : Token}

theorem Token.isPunct_of_kind {p : Punct} (h : t'.kind = t.kind) (ht : t.isPunct p) :
    t'.isPunct p := by
  rwa [Token.isPunct, h]

theorem Token.isKeyword_of_kind {k : Keyword} (h : t'.kind = t.kind) (ht : t.isKeyword k) :
    t'.isKeyword k := by
  rwa [Token.isKeyword, h]

theorem Token.isIdentifier_of_kind (h : t'.kind = t.kind) (ht : t.isIdentifier) :
    t'.isIdentifier := by
  rwa [Token.isIdentifier, h]

/-- Whether a token is an operator of a tier is a matter of its kind. -/
theorem Token.isOperator_of_kind (h : t'.kind = t.kind) {tier : Grammar.Tier}
    (ht : tier.isOperator t) : tier.isOperator t' := by
  have heq : tier.isOperator t' = tier.isOperator t := by
    cases tier <;> simp only [Grammar.Tier.isOperator, Token.isPunct, Token.isKeyword, h]
  rwa [heq]

/-- A token that is moved remains the punctuation that it is. -/
theorem Token.SameText.isPunct {p : Punct} (h : t.SameText t') (ht : t.isPunct p) : t'.isPunct p :=
  isPunct_of_kind h.kind ht

theorem Token.SameText.isKeyword {k : Keyword} (h : t.SameText t') (ht : t.isKeyword k) :
    t'.isKeyword k :=
  isKeyword_of_kind h.kind ht

theorem Token.SameText.isIdentifier (h : t.SameText t') (ht : t.isIdentifier) : t'.isIdentifier :=
  isIdentifier_of_kind h.kind ht

/-- A token that is moved remains the operator that it is. -/
theorem Token.SameText.isOperator (h : t.SameText t') {tier : Grammar.Tier}
    (ht : tier.isOperator t) : tier.isOperator t' :=
  isOperator_of_kind h.kind ht

end Kind

namespace Grammar

variable {g : Token → Token} {R : Token → Token → Prop} {ts : List Token}

/-- Pieces that are moved are still separated by commas. -/
theorem Separated.map {pieces : List (List Token)} (h : Separated pieces ts)
    (hg : ∀ t : Token, t.SameText (g t)) : Separated (pieces.map (List.map g)) (ts.map g) := by
  induction h with
  | none => exact .none
  | one => exact .one
  | more hcomma _ ih =>
    rw [List.map_append, List.map_cons]
    exact .more ((hg _).isPunct hcomma) ih

theorem Separated.subset {pieces : List (List Token)} {piece : List Token}
    (h : Separated pieces ts) (hpiece : piece ∈ pieces) : piece ⊆ ts := by
  induction h with
  | none => cases hpiece
  | one =>
    obtain rfl := List.mem_singleton.mp hpiece
    exact List.Subset.refl _
  | more _ _ ih =>
    rcases List.mem_cons.mp hpiece with rfl | hpiece
    · exact List.subset_append_left _ _
    · exact fun t ht => List.mem_append_right _ (List.mem_cons_of_mem _ (ih hpiece ht))

/-- The arguments of a call when their tokens are moved. -/
theorem exists_relocated_arguments {parts : List (List Token × Expr Unit)}
    (h : ∀ part ∈ parts, ∃ e', Phrase.expression.Derives (part.1.map g) e' ∧
      part.2.Alike R (fun _ _ => True) e') :
    ∃ parts' : List (List Token × Expr Unit),
      parts'.map Prod.fst = (parts.map Prod.fst).map (List.map g) ∧
      (∀ part ∈ parts', Phrase.expression.Derives part.1 part.2) ∧
      Expr.AlikeAll R (fun _ _ => True) (parts.map Prod.snd) (parts'.map Prod.snd) := by
  induction parts with
  | nil => exact ⟨[], rfl, by simp, .nil⟩
  | cons part parts ih =>
    rw [List.forall_mem_cons] at h
    obtain ⟨⟨e', hderives, halike⟩, hrest⟩ := h
    obtain ⟨parts', hpieces, hparts, halikes⟩ := ih hrest
    refine ⟨⟨part.1.map g, e'⟩ :: parts', ?_, ?_, .cons halike halikes⟩
    · simp [hpieces]
    · exact List.forall_mem_cons.mpr ⟨hderives, hparts⟩

/-- An expression whose tokens are moved has a tree of the same shape. -/
theorem Phrase.Derives.relocate {p : Phrase} {e : Expr Unit} (h : p.Derives ts e)
    (hg : ∀ t : Token, t.SameText (g t)) (hR : ∀ t ∈ ts, R t (g t)) :
    ∃ e', p.Derives (ts.map g) e' ∧ e.Alike R (fun _ _ => True) e' := by
  induction h with
  | assignment hname hequals _ ih =>
    simp only [List.forall_mem_cons] at hR
    obtain ⟨e', hderives, halike⟩ := ih hR.2.2
    exact ⟨_, .assignment ((hg _).isIdentifier hname) ((hg _).isPunct hequals) hderives,
      .assign trivial hR.1 halike⟩
  | disjunction _ ih =>
    obtain ⟨e', hderives, halike⟩ := ih hR
    exact ⟨e', .disjunction hderives, halike⟩
  | operand _ ih =>
    obtain ⟨e', hderives, halike⟩ := ih hR
    exact ⟨e', .operand hderives, halike⟩
  | @operation t _ _ operator _ _ _ hoperator _ ihleft ihright =>
    rw [List.forall_mem_append, List.forall_mem_cons] at hR
    obtain ⟨left', hleft, halike⟩ := ihleft hR.1
    obtain ⟨right', hright, halike'⟩ := ihright hR.2.2
    rw [List.map_append, List.map_cons]
    refine ⟨_, .operation hleft ((hg _).isOperator hoperator) hright, ?_⟩
    cases t with
    | disjunction | conjunction => exact .logical halike hR.2.1 halike'
    | _ => exact .binary halike hR.2.1 halike'
  | signed hoperator _ ih =>
    rw [List.forall_mem_cons] at hR
    obtain ⟨e', hderives, halike⟩ := ih hR.2
    refine ⟨_, .signed ?_ hderives, .unary hR.1 halike⟩
    rw [Bool.or_eq_true] at hoperator ⊢
    exact hoperator.imp (hg _).isPunct (hg _).isPunct
  | unsigned _ ih =>
    obtain ⟨e', hderives, halike⟩ := ih hR
    exact ⟨e', .unsigned hderives, halike⟩
  | callee _ ih =>
    obtain ⟨e', hderives, halike⟩ := ih hR
    exact ⟨e', .callee hderives, halike⟩
  | @application _ _ _ _ _ parts _ hopen _ hseparated hlimit hclose ihcallee ihparts =>
    simp only [List.forall_mem_append, List.forall_mem_cons] at hR
    obtain ⟨hcalleeR, -, hpartsR, hcloseR, -⟩ := hR
    obtain ⟨callee', hcallee, halike⟩ := ihcallee hcalleeR
    obtain ⟨parts', hpieces, hparts, halikes⟩ :=
      exists_relocated_arguments fun part hpart => ihparts part hpart fun t ht =>
        hpartsR t (hseparated.subset (List.mem_map_of_mem hpart) ht)
    have hlength : parts'.length = parts.length := by
      simpa using congrArg List.length hpieces
    have hseparated' := hseparated.map hg
    rw [← hpieces] at hseparated'
    rw [← hlength] at hlimit
    simp only [List.map_append, List.map_cons]
    exact ⟨_, .application hcallee ((hg _).isPunct hopen) hparts hseparated' hlimit
      ((hg _).isPunct hclose), .call halike hcloseR halikes⟩
  | falsity h => exact ⟨_, .falsity ((hg _).isKeyword h), .literal⟩
  | truth h => exact ⟨_, .truth ((hg _).isKeyword h), .literal⟩
  | nil h => exact ⟨_, .nil ((hg _).isKeyword h), .literal⟩
  | number h => exact ⟨_, .number ((hg _).kind.trans h), .literal⟩
  | string h => exact ⟨_, .string ((hg _).kind.trans h), .literal⟩
  | «variable» hname =>
    exact ⟨_, .variable ((hg _).isIdentifier hname),
      .var trivial (hR _ (List.mem_singleton_self _))⟩
  | grouping hopen _ hclose ih =>
    simp only [List.forall_mem_append, List.forall_mem_cons] at hR
    obtain ⟨e', hderives, halike⟩ := ih hR.2.1
    rw [List.map_cons, List.map_append]
    exact ⟨_, .grouping ((hg _).isPunct hopen) hderives ((hg _).isPunct hclose), .grouping halike⟩

theorem DerivesOptional.relocate {value : Option (Expr Unit)} (h : DerivesOptional ts value)
    (hg : ∀ t : Token, t.SameText (g t)) (hR : ∀ t ∈ ts, R t (g t)) :
    ∃ value', DerivesOptional (ts.map g) value' ∧
      Option.Rel (Expr.Alike R fun _ _ => True) value value' := by
  cases h with
  | absent => exact ⟨_, .absent, .none⟩
  | present h =>
    obtain ⟨e', hderives, halike⟩ := h.relocate hg hR
    exact ⟨_, .present hderives, .some halike⟩

/-- A variable declaration whose tokens are moved has a tree of the same shape. -/
theorem DerivesVariable.relocate {s : Stmt Unit} (h : DerivesVariable ts s)
    (hg : ∀ t : Token, t.SameText (g t)) (hR : ∀ t ∈ ts, R t (g t)) :
    ∃ s', DerivesVariable (ts.map g) s' ∧ s.Alike R (fun _ _ => True) s' := by
  cases h with
  | plain hname hsemicolon =>
    exact ⟨_, .plain ((hg _).isIdentifier hname) ((hg _).isPunct hsemicolon),
      .declared (hR _ List.mem_cons_self)⟩
  | initialized hname hequals h hsemicolon =>
    simp only [List.forall_mem_append, List.forall_mem_cons] at hR
    obtain ⟨e', hderives, halike⟩ := h.relocate hg hR.2.2.1
    simp only [List.map_append, List.map_cons]
    exact ⟨_, .initialized ((hg _).isIdentifier hname) ((hg _).isPunct hequals) hderives
      ((hg _).isPunct hsemicolon), .initialized hR.1 halike⟩

/-- An initializer whose tokens are moved has a tree of the same shape. -/
theorem DerivesInitializer.relocate {first : Option (Stmt Unit)} (h : DerivesInitializer ts first)
    (hg : ∀ t : Token, t.SameText (g t)) (hR : ∀ t ∈ ts, R t (g t)) :
    ∃ first', DerivesInitializer (ts.map g) first' ∧
      Option.Rel (Stmt.Alike R fun _ _ => True) first first' := by
  cases h with
  | absent hsemicolon => exact ⟨_, .absent ((hg _).isPunct hsemicolon), .none⟩
  | «variable» hkeyword h =>
    rw [List.forall_mem_cons] at hR
    obtain ⟨s', hderives, halike⟩ := h.relocate hg hR.2
    exact ⟨_, .variable ((hg _).isKeyword hkeyword) hderives, .some halike⟩
  | expression h hsemicolon =>
    rw [List.forall_mem_append] at hR
    obtain ⟨e', hderives, halike⟩ := h.relocate hg hR.1
    rw [List.map_append]
    exact ⟨_, .expression hderives ((hg _).isPunct hsemicolon), .some (.expression halike)⟩

/-- Alike clauses make alike loops. -/
theorem alike_forLoop {first first' : Option (Stmt Unit)}
    {condition condition' increment increment' : Option (Expr Unit)} {s s' : Stmt Unit}
    (hfirst : Option.Rel (Stmt.Alike R fun _ _ => True) first first')
    (hcondition : Option.Rel (Expr.Alike R fun _ _ => True) condition condition')
    (hincrement : Option.Rel (Expr.Alike R fun _ _ => True) increment increment')
    (hbody : s.Alike R (fun _ _ => True) s') :
    (forLoop first condition increment s).Alike R (fun _ _ => True)
      (forLoop first' condition' increment' s') := by
  have htest : (condition.getD (.literal (.bool true))).Alike R (fun _ _ => True)
      (condition'.getD (.literal (.bool true))) := by
    cases hcondition with
    | none => exact .literal
    | some h => exact h
  have hloop (t t' : Stmt Unit) (ht : t.Alike R (fun _ _ => True) t') :
      (forLoop first condition none t).Alike R (fun _ _ => True)
        (forLoop first' condition' none t') := by
    cases hfirst with
    | none => exact .while htest ht
    | some h => exact .block (.cons h (.cons (.while htest ht) .nil))
  cases hincrement with
  | none => exact hloop _ _ hbody
  | some h => exact hloop _ _ (.block (.cons hbody (.cons (.expression h) .nil)))

/-- The parts of a block or a program when their tokens are moved. -/
theorem exists_relocated_parts {nearest : Bool} {parts : List Part}
    (h : ∀ part ∈ parts, ∃ s', Category.declaration.Derives nearest (part.tokens.map g) s'
      part.dangling ∧ part.tree.Alike R (fun _ _ => True) s') :
    ∃ parts' : List Part, parts'.flatMap Part.tokens = (parts.flatMap Part.tokens).map g ∧
      (∀ part ∈ parts', Category.declaration.Derives nearest part.tokens part.tree part.dangling) ∧
      Stmt.AlikeAll R (fun _ _ => True) (parts.map Part.tree) (parts'.map Part.tree) := by
  induction parts with
  | nil => exact ⟨[], rfl, by simp, .nil⟩
  | cons part parts ih =>
    rw [List.forall_mem_cons] at h
    obtain ⟨⟨s', hderives, halike⟩, hrest⟩ := h
    obtain ⟨parts', htokens, hparts, halikes⟩ := ih hrest
    refine ⟨⟨part.tokens.map g, s', part.dangling⟩ :: parts', ?_, ?_, .cons halike halikes⟩
    · simp [htokens]
    · exact List.forall_mem_cons.mpr ⟨hderives, hparts⟩

theorem forall_mem_tokens {parts : List Part} (h : ∀ t ∈ parts.flatMap Part.tokens, R t (g t))
    {part : Part} (hpart : part ∈ parts) : ∀ t ∈ part.tokens, R t (g t) :=
  fun t ht => h t (List.mem_flatMap.mpr ⟨part, hpart, ht⟩)

/-- A statement whose tokens are moved has a tree of the same shape, and an open conditional stays
    open. -/
theorem Category.Derives.relocate {nearest dangling : Bool} {c : Category} {s : Stmt Unit}
    (h : c.Derives nearest ts s dangling) (hg : ∀ t : Token, t.SameText (g t))
    (hR : ∀ t ∈ ts, R t (g t)) :
    ∃ s', c.Derives nearest (ts.map g) s' dangling ∧ s.Alike R (fun _ _ => True) s' := by
  induction h with
  | @function _ _ _ _ _ _ params us parts hkeyword hname hopen hparams hlimit hseparated hclose
      hopenBrace _ hcloseBrace ih =>
    simp only [List.forall_mem_append, List.forall_mem_cons] at hR
    obtain ⟨-, hnameR, -, hparamsR, -, -, hpartsR, -⟩ := hR
    obtain ⟨parts', htokens, hparts, halike⟩ :=
      exists_relocated_parts fun part hpart => ih part hpart (forall_mem_tokens hpartsR hpart)
    have hseparated' : Separated ((params.map g).map fun p => [p]) (us.map g) := by
      simpa [Function.comp_def] using hseparated.map hg
    have hparams' : ∀ p ∈ params.map g, p.isIdentifier := by
      simpa using fun p hp => (hg p).isIdentifier (hparams p hp)
    have hderives := Category.Derives.function ((hg _).isKeyword hkeyword)
      ((hg _).isIdentifier hname) ((hg _).isPunct hopen) hparams' (by simpa using hlimit)
      hseparated' ((hg _).isPunct hclose) ((hg _).isPunct hopenBrace) hparts
      ((hg _).isPunct hcloseBrace)
    rw [htokens] at hderives
    refine ⟨_, by simpa using hderives, .function hnameR ?_ halike⟩
    rw [List.forall₂_map_right_iff, List.forall₂_same]
    intro p hp
    exact hparamsR p (hseparated.subset (List.mem_map_of_mem hp) (List.mem_singleton_self p))
  | «variable» hkeyword h =>
    rw [List.forall_mem_cons] at hR
    obtain ⟨s', hderives, halike⟩ := h.relocate hg hR.2
    exact ⟨s', .variable ((hg _).isKeyword hkeyword) hderives, halike⟩
  | statement _ ih =>
    obtain ⟨s', hderives, halike⟩ := ih hR
    exact ⟨s', .statement hderives, halike⟩
  | expression h hsemicolon =>
    rw [List.forall_mem_append] at hR
    obtain ⟨e', hderives, halike⟩ := h.relocate hg hR.1
    rw [List.map_append]
    exact ⟨_, .expression hderives ((hg _).isPunct hsemicolon), .expression halike⟩
  | print hkeyword h hsemicolon =>
    simp only [List.forall_mem_append, List.forall_mem_cons] at hR
    obtain ⟨e', hderives, halike⟩ := h.relocate hg hR.2.1
    rw [List.map_cons, List.map_append]
    exact ⟨_, .print ((hg _).isKeyword hkeyword) hderives ((hg _).isPunct hsemicolon),
      .print halike⟩
  | «return» hkeyword h hsemicolon =>
    simp only [List.forall_mem_append, List.forall_mem_cons] at hR
    obtain ⟨value', hderives, halike⟩ := h.relocate hg hR.2.1
    rw [List.map_cons, List.map_append]
    refine ⟨_, .return ((hg _).isKeyword hkeyword) hderives ((hg _).isPunct hsemicolon), ?_⟩
    cases halike with
    | none => exact .finished hR.1
    | some halike => exact .returned hR.1 halike
  | block hopen _ hclose ih =>
    simp only [List.forall_mem_append, List.forall_mem_cons] at hR
    obtain ⟨parts', htokens, hparts, halike⟩ :=
      exists_relocated_parts fun part hpart => ih part hpart (forall_mem_tokens hR.2.1 hpart)
    rw [List.map_cons, List.map_append, ← htokens]
    exact ⟨_, .block ((hg _).isPunct hopen) hparts ((hg _).isPunct hclose), .block halike⟩
  | ifThen hkeyword hopen hcondition hclose _ ih =>
    simp only [List.forall_mem_append, List.forall_mem_cons] at hR
    obtain ⟨-, -, hconditionR, -, hthenR⟩ := hR
    obtain ⟨e', he, halike⟩ := hcondition.relocate hg hconditionR
    obtain ⟨s', hs, halike'⟩ := ih hthenR
    simp only [List.map_append, List.map_cons]
    exact ⟨_, .ifThen ((hg _).isKeyword hkeyword) ((hg _).isPunct hopen) he ((hg _).isPunct hclose)
      hs, .ifThen halike halike'⟩
  | ifElse hkeyword hopen hcondition hclose _ hnearest helse _ ihthen ihother =>
    simp only [List.forall_mem_append, List.forall_mem_cons] at hR
    obtain ⟨-, -, hconditionR, -, hthenR, -, hotherR⟩ := hR
    obtain ⟨e', he, halike⟩ := hcondition.relocate hg hconditionR
    obtain ⟨s', hs, halike'⟩ := ihthen hthenR
    obtain ⟨t', ht, halike''⟩ := ihother hotherR
    simp only [List.map_append, List.map_cons]
    exact ⟨_, .ifElse ((hg _).isKeyword hkeyword) ((hg _).isPunct hopen) he ((hg _).isPunct hclose)
      hs hnearest ((hg _).isKeyword helse) ht, .ifElse halike halike' halike''⟩
  | «while» hkeyword hopen hcondition hclose _ ih =>
    simp only [List.forall_mem_append, List.forall_mem_cons] at hR
    obtain ⟨-, -, hconditionR, -, hbodyR⟩ := hR
    obtain ⟨e', he, halike⟩ := hcondition.relocate hg hconditionR
    obtain ⟨s', hs, halike'⟩ := ih hbodyR
    simp only [List.map_append, List.map_cons]
    exact ⟨_, .while ((hg _).isKeyword hkeyword) ((hg _).isPunct hopen) he ((hg _).isPunct hclose)
      hs, .while halike halike'⟩
  | «for» hkeyword hopen hfirst hcondition hsemicolon hincrement hclose _ ih =>
    simp only [List.forall_mem_append, List.forall_mem_cons] at hR
    obtain ⟨-, -, hfirstR, hconditionR, -, hincrementR, -, hbodyR⟩ := hR
    obtain ⟨first', hfirst', halikeFirst⟩ := hfirst.relocate hg hfirstR
    obtain ⟨condition', hcondition', halikeCondition⟩ := hcondition.relocate hg hconditionR
    obtain ⟨increment', hincrement', halikeIncrement⟩ := hincrement.relocate hg hincrementR
    obtain ⟨s', hs, halike⟩ := ih hbodyR
    simp only [List.map_append, List.map_cons]
    exact ⟨_, .for ((hg _).isKeyword hkeyword) ((hg _).isPunct hopen) hfirst' hcondition'
      ((hg _).isPunct hsemicolon) hincrement' ((hg _).isPunct hclose) hs,
      alike_forLoop halikeFirst halikeCondition halikeIncrement halike⟩

/-- A program whose tokens are moved has a tree of the same shape, with the tokens moved. -/
theorem DerivesProgram.relocate {nearest : Bool} {ss : List (Stmt Unit)}
    (h : DerivesProgram nearest ts ss) (hg : ∀ t : Token, t.SameText (g t))
    (hR : ∀ t ∈ ts, R t (g t)) :
    ∃ ss', DerivesProgram nearest (ts.map g) ss' ∧ Stmt.AlikeAll R (fun _ _ => True) ss ss' := by
  obtain ⟨parts, rfl, rfl, hparts⟩ := h
  obtain ⟨parts', htokens, hparts', halike⟩ := exists_relocated_parts fun part hpart =>
    (hparts part hpart).relocate hg (forall_mem_tokens hR hpart)
  exact ⟨_, ⟨parts', htokens.symm, rfl, hparts'⟩, halike⟩

/-- Programs in a row are a program. -/
theorem DerivesProgram.append {nearest : Bool} {us : List Token} {ss ss' : List (Stmt Unit)}
    (h : DerivesProgram nearest ts ss) (h' : DerivesProgram nearest us ss') :
    DerivesProgram nearest (ts ++ us) (ss ++ ss') := by
  obtain ⟨parts, rfl, rfl, hparts⟩ := h
  obtain ⟨parts', rfl, rfl, hparts'⟩ := h'
  exact ⟨parts ++ parts', List.flatMap_append.symm, List.map_append.symm,
    List.forall_mem_append.mpr ⟨hparts, hparts'⟩⟩

end Grammar

end Lox

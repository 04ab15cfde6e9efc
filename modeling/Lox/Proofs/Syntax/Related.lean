import Lox.Proofs.Syntax.Alike

namespace Lox

mutual

/-- Expressions with related operators, and in the same places references that are related together
    with their names. -/
inductive Expr.Related {ρ σ : Type} (R : Token → Token → Prop)
    (S : ρ → Token → σ → Token → Prop) : Expr ρ → Expr σ → Prop
  | literal : Related R S (.literal value) (.literal value)
  | grouping (h : Related R S e e') : Related R S (.grouping e) (.grouping e')
  | unary (hoperator : R operator operator') (h : Related R S e e') :
      Related R S (.unary operator e) (.unary operator' e')
  | binary (hleft : Related R S left left') (hoperator : R operator operator')
      (hright : Related R S right right') :
      Related R S (.binary left operator right) (.binary left' operator' right')
  | logical (hleft : Related R S left left') (hoperator : R operator operator')
      (hright : Related R S right right') :
      Related R S (.logical left operator right) (.logical left' operator' right')
  | var (href : S ref name ref' name') : Related R S (.var ref name) (.var ref' name')
  | assign (href : S ref name ref' name') (hvalue : Related R S e e') :
      Related R S (.assign ref name e) (.assign ref' name' e')
  | call (hcallee : Related R S e e') (hparen : R paren paren')
      (harguments : Expr.RelatedAll R S arguments arguments') :
      Related R S (.call e paren arguments) (.call e' paren' arguments')

inductive Expr.RelatedAll {ρ σ : Type} (R : Token → Token → Prop)
    (S : ρ → Token → σ → Token → Prop) : List (Expr ρ) → List (Expr σ) → Prop
  | nil : RelatedAll R S [] []
  | cons (hfirst : Expr.Related R S e e') (hrest : RelatedAll R S es es') :
      RelatedAll R S (e :: es) (e' :: es')

end

variable {ρ σ : Type} {R R' : Token → Token → Prop} {T : ρ → σ → Prop}
  {S S' : ρ → Token → σ → Token → Prop}

mutual

/-- More tokens and more references may be related. -/
theorem Expr.Related.mono {e : Expr ρ} {e' : Expr σ} (h : e.Related R S e')
    (hR : ∀ t t', R t t' → R' t t')
    (hS : ∀ {r name r' name'}, S r name r' name' → S' r name r' name') : e.Related R' S' e' := by
  cases h with
  | literal => exact .literal
  | grouping h => exact .grouping (h.mono hR hS)
  | unary hoperator h => exact .unary (hR _ _ hoperator) (h.mono hR hS)
  | binary hleft hoperator hright =>
    exact .binary (hleft.mono hR hS) (hR _ _ hoperator) (hright.mono hR hS)
  | logical hleft hoperator hright =>
    exact .logical (hleft.mono hR hS) (hR _ _ hoperator) (hright.mono hR hS)
  | var href => exact .var (hS href)
  | assign href hvalue => exact .assign (hS href) (hvalue.mono hR hS)
  | call hcallee hparen harguments =>
    exact .call (hcallee.mono hR hS) (hR _ _ hparen) (harguments.mono hR hS)

theorem Expr.RelatedAll.mono {es : List (Expr ρ)} {es' : List (Expr σ)}
    (h : Expr.RelatedAll R S es es') (hR : ∀ t t', R t t' → R' t t')
    (hS : ∀ {r name r' name'}, S r name r' name' → S' r name r' name') :
    Expr.RelatedAll R' S' es es' := by
  cases h with
  | nil => exact .nil
  | cons hfirst hrest => exact .cons (hfirst.mono hR hS) (hrest.mono hR hS)

end

mutual

/-- Where references and names are related apart, they are as one. -/
theorem Expr.Alike.related {e : Expr ρ} {e' : Expr σ} (h : e.Alike R T e')
    (hS : ∀ {r r' name name'}, T r r' → R name name' → S r name r' name') :
    e.Related R S e' := by
  cases h with
  | literal => exact .literal
  | grouping h => exact .grouping (h.related hS)
  | unary hoperator h => exact .unary hoperator (h.related hS)
  | binary hleft hoperator hright => exact .binary (hleft.related hS) hoperator (hright.related hS)
  | logical hleft hoperator hright =>
    exact .logical (hleft.related hS) hoperator (hright.related hS)
  | var href hname => exact .var (hS href hname)
  | assign href hname hvalue => exact .assign (hS href hname) (hvalue.related hS)
  | call hcallee hparen harguments =>
    exact .call (hcallee.related hS) hparen (harguments.related hS)

theorem Expr.AlikeAll.related {es : List (Expr ρ)} {es' : List (Expr σ)}
    (h : Expr.AlikeAll R T es es')
    (hS : ∀ {r r' name name'}, T r r' → R name name' → S r name r' name') :
    Expr.RelatedAll R S es es' := by
  cases h with
  | nil => exact .nil
  | cons hfirst hrest => exact .cons (hfirst.related hS) (hrest.related hS)

end

section Compose

/-! Behind an expression that is related to a first one, a third is alike the second. What is known
of the tokens at each place of the first and the third is kept. -/

variable {τ : Type} {Q Q' : Token → Token → Prop} {T : σ → τ → Prop} {T' : ρ → τ → Prop}
  {U : ρ → Token → τ → Token → Prop}

mutual

/-- A first expression is related to the third, by whatever follows at each place from how the three
    belong together there. -/
theorem Expr.Related.compose {e : Expr ρ} {e' : Expr σ} {e'' : Expr τ} (h : e.Related R S e')
    (hQ : e'.Alike Q T e'') (hQ' : e.Alike Q' T' e'')
    (hR : ∀ {t t' t''}, R t t' → Q t' t'' → Q' t t'' → R' t t'')
    (hU : ∀ {r r' r'' name name' name''}, S r name r' name' → T r' r'' → Q name' name'' →
      Q' name name'' → U r name r'' name'') : e.Related R' U e'' := by
  cases h with
  | literal =>
    cases hQ
    exact .literal
  | grouping h =>
    cases hQ with
    | grouping hQ =>
      cases hQ' with
      | grouping hQ' => exact .grouping (h.compose hQ hQ' hR hU)
  | unary hoperator h =>
    cases hQ with
    | unary hoperatorQ hQ =>
      cases hQ' with
      | unary hoperatorQ' hQ' =>
        exact .unary (hR hoperator hoperatorQ hoperatorQ') (h.compose hQ hQ' hR hU)
  | binary hleft hoperator hright =>
    cases hQ with
    | binary hleftQ hoperatorQ hrightQ =>
      cases hQ' with
      | binary hleftQ' hoperatorQ' hrightQ' =>
        exact .binary (hleft.compose hleftQ hleftQ' hR hU)
          (hR hoperator hoperatorQ hoperatorQ') (hright.compose hrightQ hrightQ' hR hU)
  | logical hleft hoperator hright =>
    cases hQ with
    | logical hleftQ hoperatorQ hrightQ =>
      cases hQ' with
      | logical hleftQ' hoperatorQ' hrightQ' =>
        exact .logical (hleft.compose hleftQ hleftQ' hR hU)
          (hR hoperator hoperatorQ hoperatorQ') (hright.compose hrightQ hrightQ' hR hU)
  | var href =>
    cases hQ with
    | var hrefQ hnameQ =>
      cases hQ' with
      | var _ hnameQ' => exact .var (hU href hrefQ hnameQ hnameQ')
  | assign href hvalue =>
    cases hQ with
    | assign hrefQ hnameQ hvalueQ =>
      cases hQ' with
      | assign _ hnameQ' hvalueQ' =>
        exact .assign (hU href hrefQ hnameQ hnameQ') (hvalue.compose hvalueQ hvalueQ' hR hU)
  | call hcallee hparen harguments =>
    cases hQ with
    | call hcalleeQ hparenQ hargumentsQ =>
      cases hQ' with
      | call hcalleeQ' hparenQ' hargumentsQ' =>
        exact .call (hcallee.compose hcalleeQ hcalleeQ' hR hU) (hR hparen hparenQ hparenQ')
          (harguments.compose hargumentsQ hargumentsQ' hR hU)

theorem Expr.RelatedAll.compose {es : List (Expr ρ)} {es' : List (Expr σ)} {es'' : List (Expr τ)}
    (h : Expr.RelatedAll R S es es') (hQ : Expr.AlikeAll Q T es' es'')
    (hQ' : Expr.AlikeAll Q' T' es es'')
    (hR : ∀ {t t' t''}, R t t' → Q t' t'' → Q' t t'' → R' t t'')
    (hU : ∀ {r r' r'' name name' name''}, S r name r' name' → T r' r'' → Q name' name'' →
      Q' name name'' → U r name r'' name'') : Expr.RelatedAll R' U es es'' := by
  cases h with
  | nil =>
    cases hQ
    exact .nil
  | cons hfirst hrest =>
    cases hQ with
    | cons hfirstQ hrestQ =>
      cases hQ' with
      | cons hfirstQ' hrestQ' =>
        exact .cons (hfirst.compose hfirstQ hfirstQ' hR hU)
          (hrest.compose hrestQ hrestQ' hR hU)

end

end Compose

end Lox

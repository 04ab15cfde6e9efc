import Lox.Scope
import Lox.Proofs.Syntax.Alike

namespace Lox

/-- The same word, maybe at another place. -/
structure Token.SameText (t t' : Token) : Prop where
  kind : t'.kind = t.kind
  lexeme : t'.lexeme = t.lexeme

theorem Token.SameText.of_eq {t t' : Token} (h : t = t') : t.SameText t' := by
  rw [h]
  exact ⟨rfl, rfl⟩

/-- The same distances for related references, and the same problems at related tokens. -/
structure Findings.Alike (R : Token → Token → Prop) (T : RefId → RefId → Prop)
    (f f' : Findings) : Prop where
  distances : List.Forall₂ (fun d d' => T d.1 d'.1 ∧ d'.2 = d.2) f.distances f'.distances
  errors : List.Forall₂ (fun e e' => R e.token e'.token ∧ e'.problem = e.problem)
    f.errors f'.errors

variable {R : Token → Token → Prop} {T : RefId → RefId → Prop}

namespace Findings

variable {f g f' g' : Findings} {keyword keyword' : Token}

theorem Alike.none : Alike R T .none .none :=
  ⟨.nil, .nil⟩

/-- Findings of two parts are alike if those of each are. -/
theorem Alike.append (h : f.Alike R T f') (h' : g.Alike R T g') :
    (f ++ g).Alike R T (f' ++ g') :=
  ⟨List.rel_append h.distances h'.distances, List.rel_append h.errors h'.errors⟩

/-- If one tree has no errors, the other has none. -/
theorem Alike.errors_eq_nil_iff (h : f.Alike R T f') : f.errors = [] ↔ f'.errors = [] := by
  rw [← List.length_eq_zero_iff, h.errors.length_eq, List.length_eq_zero_iff]

/-- At the same tokens the errors are the same. -/
theorem Alike.errors_eq (h : f.Alike R T f') (hR : ∀ t t', R t t' → t' = t) :
    f'.errors = f.errors := by
  have heq : List.Forall₂ (· = ·) f.errors f'.errors := by
    refine h.errors.imp fun e e' he => ?_
    cases e
    cases e'
    rw [ScopeError.mk.injEq]
    exact ⟨(hR _ _ he.1).symm, he.2.symm⟩
  exact (List.forall₂_eq_eq_eq ▸ heq : f.errors = f'.errors).symm

/-- For the same references the distances are the same. -/
theorem Alike.distances_eq (h : f.Alike R T f') (hT : ∀ r r', T r r' → r' = r) :
    f'.distances = f.distances := by
  have heq : List.Forall₂ (· = ·) f.distances f'.distances :=
    h.distances.imp fun d d' hd => Prod.ext (hT _ _ hd.1).symm hd.2.symm
  exact (List.forall₂_eq_eq_eq ▸ heq : f.distances = f'.distances).symm

/-- A return outside functions is a fault in both trees. -/
theorem alike_ofReturn (hkeyword : R keyword keyword') (inFunction : Bool) :
    (ofReturn inFunction keyword).Alike R T (ofReturn inFunction keyword') := by
  cases inFunction with
  | true => exact .none
  | false => exact ⟨.nil, .cons ⟨hkeyword, rfl⟩ .nil⟩

end Findings

namespace Scope

variable {ref ref' : RefId} {name name' : Token}

/-- A declaration is recorded by its word. -/
theorem record_eq (h : name.SameText name') (defined : Bool) (scopes : List Scope) :
    record name' defined scopes = record name defined scopes := by
  cases scopes with
  | nil => rfl
  | cons scope outer => rw [record, record, h.lexeme]

/-- A name is looked up by its word. -/
theorem isPending_eq (h : name.SameText name') (scopes : List Scope) :
    isPending scopes name' = isPending scopes name := by
  cases scopes with
  | nil => rfl
  | cons scope outer => simp only [isPending, h.lexeme]

/-- References with the same word have the same distance. -/
theorem alike_ofReference (href : T ref ref') (h : name.SameText name') (scopes : List Scope) :
    (ofReference scopes ref name).Alike R T (ofReference scopes ref' name') := by
  have hdistance : distance? scopes name' = distance? scopes name := by
    rw [distance?, distance?, h.lexeme]
  unfold ofReference
  rw [hdistance]
  cases distance? scopes name with
  | none => exact .none
  | some distance => exact ⟨.cons ⟨href, rfl⟩ .nil, .nil⟩

theorem ofParameters_eq {parameters parameters' : List Token}
    (h : List.Forall₂ Token.SameText parameters parameters') :
    ofParameters parameters' = ofParameters parameters := by
  have hfold (scope : Scope) : parameters'.foldl (fun scope p => (p.lexeme, true) :: scope) scope =
      parameters.foldl (fun scope p => (p.lexeme, true) :: scope) scope := by
    induction h generalizing scope with
    | nil => rfl
    | cons hfirst _ ih => rw [List.foldl_cons, List.foldl_cons, hfirst.lexeme, ih]
  exact hfold []

end Scope

mutual

/-- Scoping finds the same in expressions of one shape. -/
theorem Expr.Alike.findings {e e' : Expr RefId} (h : e.Alike R T e')
    (hR : ∀ t t', R t t' → t.SameText t') (scopes : List Scope) :
    (e.findings scopes).Alike R T (e'.findings scopes) := by
  cases h with
  | literal => exact .none
  | grouping h => exact h.findings hR scopes
  | unary _ h => exact h.findings hR scopes
  | binary hleft _ hright => exact (hleft.findings hR scopes).append (hright.findings hR scopes)
  | logical hleft _ hright => exact (hleft.findings hR scopes).append (hright.findings hR scopes)
  | var href hname =>
    refine Findings.Alike.append ⟨.nil, ?_⟩ (Scope.alike_ofReference href (hR _ _ hname) scopes)
    dsimp only
    rw [Scope.isPending_eq (hR _ _ hname)]
    split
    · exact .cons ⟨hname, rfl⟩ .nil
    · exact .nil
  | assign href hname hvalue =>
    exact (hvalue.findings hR scopes).append (Scope.alike_ofReference href (hR _ _ hname) scopes)
  | call hcallee _ harguments =>
    exact (hcallee.findings hR scopes).append (harguments.findings hR scopes)

theorem Expr.AlikeAll.findings {es es' : List (Expr RefId)} (h : Expr.AlikeAll R T es es')
    (hR : ∀ t t', R t t' → t.SameText t') (scopes : List Scope) :
    (Expr.findingsAll scopes es).Alike R T (Expr.findingsAll scopes es') := by
  cases h with
  | nil => exact .none
  | cons hfirst hrest => exact (hfirst.findings hR scopes).append (hrest.findings hR scopes)

end

mutual

/-- Scoping finds the same in statements of one shape, and leaves the same scopes. -/
theorem Stmt.Alike.findings {s s' : Stmt RefId} (h : s.Alike R T s')
    (hR : ∀ t t', R t t' → t.SameText t') (inFunction : Bool) (scopes : List Scope) :
    (s.findings inFunction scopes).1.Alike R T (s'.findings inFunction scopes).1 ∧
      (s'.findings inFunction scopes).2 = (s.findings inFunction scopes).2 := by
  cases h with
  | expression h => exact ⟨h.findings hR scopes, rfl⟩
  | print h => exact ⟨h.findings hR scopes, rfl⟩
  | declared hname =>
    refine ⟨.none, ?_⟩
    simp only [Stmt.findings, Scope.record_eq (hR _ _ hname)]
  | initialized hname h =>
    simp only [Stmt.findings, Scope.record_eq (hR _ _ hname), and_true]
    exact h.findings hR _
  | block h => exact ⟨(h.findings hR inFunction _).1, rfl⟩
  | ifThen hcondition hthen =>
    obtain ⟨hfindings, hscopes⟩ := hthen.findings hR inFunction scopes
    exact ⟨(hcondition.findings hR scopes).append hfindings, hscopes⟩
  | ifElse hcondition hthen helse =>
    obtain ⟨hfindings, hscopes⟩ := hthen.findings hR inFunction scopes
    simp only [Stmt.findings, hscopes]
    obtain ⟨hfindings', hscopes'⟩ := helse.findings hR inFunction _
    exact ⟨(hcondition.findings hR scopes).append (hfindings.append hfindings'), hscopes'⟩
  | «while» hcondition hbody =>
    obtain ⟨hfindings, hscopes⟩ := hbody.findings hR inFunction scopes
    exact ⟨(hcondition.findings hR scopes).append hfindings, hscopes⟩
  | function hname hparameters hbody =>
    have hparameters' := Scope.ofParameters_eq (hparameters.imp hR)
    simp only [Stmt.findings, Scope.record_eq (hR _ _ hname), hparameters', and_true]
    exact (hbody.findings hR true _).1
  | finished hkeyword => exact ⟨Findings.alike_ofReturn hkeyword inFunction, rfl⟩
  | returned hkeyword h =>
    exact ⟨(Findings.alike_ofReturn hkeyword inFunction).append (h.findings hR scopes), rfl⟩

theorem Stmt.AlikeAll.findings {ss ss' : List (Stmt RefId)} (h : Stmt.AlikeAll R T ss ss')
    (hR : ∀ t t', R t t' → t.SameText t') (inFunction : Bool) (scopes : List Scope) :
    (Stmt.findingsAll inFunction scopes ss).1.Alike R T (Stmt.findingsAll inFunction scopes ss').1 ∧
      (Stmt.findingsAll inFunction scopes ss').2 = (Stmt.findingsAll inFunction scopes ss).2 := by
  cases h with
  | nil => exact ⟨.none, rfl⟩
  | cons hfirst hrest =>
    obtain ⟨hfindings, hscopes⟩ := hfirst.findings hR inFunction scopes
    simp only [Stmt.findingsAll, hscopes]
    obtain ⟨hfindings', hscopes'⟩ := hrest.findings hR inFunction _
    exact ⟨hfindings.append hfindings', hscopes'⟩

end

/-- What scoping finds in a program depends on its shape alone. -/
theorem findingsOf_alike {ss ss' : List (Stmt RefId)} (h : Stmt.AlikeAll R T ss ss')
    (hR : ∀ t t', R t t' → t.SameText t') : (findingsOf ss).Alike R T (findingsOf ss') :=
  (h.findings hR false []).1

end Lox

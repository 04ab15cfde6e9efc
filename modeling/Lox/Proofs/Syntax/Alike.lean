import Mathlib.Tactic
import Lox.Proofs.Scoping.Numbering

/-!
Trees of one shape. They agree in all but their tokens and the identities of their references, and
these correspond to each other, as do those of a text and of the same text at another place.
-/

namespace Lox

mutual

/-- Expressions with related tokens and references in the same places. -/
inductive Expr.Alike {ρ σ : Type} (R : Token → Token → Prop) (S : ρ → σ → Prop) :
    Expr ρ → Expr σ → Prop
  | literal : Alike R S (.literal value) (.literal value)
  | grouping (h : Alike R S e e') : Alike R S (.grouping e) (.grouping e')
  | unary (hoperator : R operator operator') (h : Alike R S e e') :
      Alike R S (.unary operator e) (.unary operator' e')
  | binary (hleft : Alike R S left left') (hoperator : R operator operator')
      (hright : Alike R S right right') :
      Alike R S (.binary left operator right) (.binary left' operator' right')
  | logical (hleft : Alike R S left left') (hoperator : R operator operator')
      (hright : Alike R S right right') :
      Alike R S (.logical left operator right) (.logical left' operator' right')
  | var (href : S ref ref') (hname : R name name') : Alike R S (.var ref name) (.var ref' name')
  | assign (href : S ref ref') (hname : R name name') (hvalue : Alike R S e e') :
      Alike R S (.assign ref name e) (.assign ref' name' e')
  | call (hcallee : Alike R S e e') (hparen : R paren paren')
      (harguments : Expr.AlikeAll R S arguments arguments') :
      Alike R S (.call e paren arguments) (.call e' paren' arguments')

inductive Expr.AlikeAll {ρ σ : Type} (R : Token → Token → Prop) (S : ρ → σ → Prop) :
    List (Expr ρ) → List (Expr σ) → Prop
  | nil : AlikeAll R S [] []
  | cons (hfirst : Expr.Alike R S e e') (hrest : AlikeAll R S es es') :
      AlikeAll R S (e :: es) (e' :: es')

end

mutual

/-- Statements with related tokens and references in the same places. -/
inductive Stmt.Alike {ρ σ : Type} (R : Token → Token → Prop) (S : ρ → σ → Prop) :
    Stmt ρ → Stmt σ → Prop
  | expression (h : e.Alike R S e') : Alike R S (.expression e) (.expression e')
  | print (h : e.Alike R S e') : Alike R S (.print e) (.print e')
  | declared (hname : R name name') : Alike R S (.var name none) (.var name' none)
  | initialized (hname : R name name') (h : e.Alike R S e') :
      Alike R S (.var name (some e)) (.var name' (some e'))
  | block (h : Stmt.AlikeAll R S body body') : Alike R S (.block body) (.block body')
  | ifThen (hcondition : e.Alike R S e') (hthen : Alike R S s s') :
      Alike R S (.if e s none) (.if e' s' none)
  | ifElse (hcondition : e.Alike R S e') (hthen : Alike R S s s') (helse : Alike R S t t') :
      Alike R S (.if e s (some t)) (.if e' s' (some t'))
  | while (hcondition : e.Alike R S e') (hbody : Alike R S s s') :
      Alike R S (.while e s) (.while e' s')
  | function (hname : R name name') (hparameters : List.Forall₂ R parameters parameters')
      (hbody : Stmt.AlikeAll R S body body') :
      Alike R S (.function name parameters body) (.function name' parameters' body')
  | finished (hkeyword : R keyword keyword') :
      Alike R S (.return keyword none) (.return keyword' none)
  | returned (hkeyword : R keyword keyword') (h : e.Alike R S e') :
      Alike R S (.return keyword (some e)) (.return keyword' (some e'))

inductive Stmt.AlikeAll {ρ σ : Type} (R : Token → Token → Prop) (S : ρ → σ → Prop) :
    List (Stmt ρ) → List (Stmt σ) → Prop
  | nil : AlikeAll R S [] []
  | cons (hfirst : Stmt.Alike R S s s') (hrest : AlikeAll R S rest rest') :
      AlikeAll R S (s :: rest) (s' :: rest')

end

variable {ρ σ : Type} {R R' : Token → Token → Prop} {S S' : ρ → σ → Prop}

mutual

/-- The relations of tokens and of references may be weakened. -/
theorem Expr.Alike.mono {e : Expr ρ} {e' : Expr σ} (h : e.Alike R S e')
    (hR : ∀ t t', R t t' → R' t t') (hS : ∀ r r', S r r' → S' r r') : e.Alike R' S' e' := by
  cases h with
  | literal => exact .literal
  | grouping h => exact .grouping (h.mono hR hS)
  | unary hoperator h => exact .unary (hR _ _ hoperator) (h.mono hR hS)
  | binary hleft hoperator hright =>
    exact .binary (hleft.mono hR hS) (hR _ _ hoperator) (hright.mono hR hS)
  | logical hleft hoperator hright =>
    exact .logical (hleft.mono hR hS) (hR _ _ hoperator) (hright.mono hR hS)
  | var href hname => exact .var (hS _ _ href) (hR _ _ hname)
  | assign href hname hvalue => exact .assign (hS _ _ href) (hR _ _ hname) (hvalue.mono hR hS)
  | call hcallee hparen harguments =>
    exact .call (hcallee.mono hR hS) (hR _ _ hparen) (harguments.mono hR hS)

theorem Expr.AlikeAll.mono {es : List (Expr ρ)} {es' : List (Expr σ)}
    (h : Expr.AlikeAll R S es es') (hR : ∀ t t', R t t' → R' t t')
    (hS : ∀ r r', S r r' → S' r r') : Expr.AlikeAll R' S' es es' := by
  cases h with
  | nil => exact .nil
  | cons hfirst hrest => exact .cons (hfirst.mono hR hS) (hrest.mono hR hS)

end

mutual

theorem Stmt.Alike.mono {s : Stmt ρ} {s' : Stmt σ} (h : s.Alike R S s')
    (hR : ∀ t t', R t t' → R' t t') (hS : ∀ r r', S r r' → S' r r') : s.Alike R' S' s' := by
  cases h with
  | expression h => exact .expression (h.mono hR hS)
  | print h => exact .print (h.mono hR hS)
  | declared hname => exact .declared (hR _ _ hname)
  | initialized hname h => exact .initialized (hR _ _ hname) (h.mono hR hS)
  | block h => exact .block (h.mono hR hS)
  | ifThen hcondition hthen => exact .ifThen (hcondition.mono hR hS) (hthen.mono hR hS)
  | ifElse hcondition hthen helse =>
    exact .ifElse (hcondition.mono hR hS) (hthen.mono hR hS) (helse.mono hR hS)
  | «while» hcondition hbody => exact .while (hcondition.mono hR hS) (hbody.mono hR hS)
  | function hname hparameters hbody =>
    exact .function (hR _ _ hname) (hparameters.imp hR) (hbody.mono hR hS)
  | finished hkeyword => exact .finished (hR _ _ hkeyword)
  | returned hkeyword h => exact .returned (hR _ _ hkeyword) (h.mono hR hS)

theorem Stmt.AlikeAll.mono {ss : List (Stmt ρ)} {ss' : List (Stmt σ)}
    (h : Stmt.AlikeAll R S ss ss') (hR : ∀ t t', R t t' → R' t t')
    (hS : ∀ r r', S r r' → S' r r') : Stmt.AlikeAll R' S' ss ss' := by
  cases h with
  | nil => exact .nil
  | cons hfirst hrest => exact .cons (hfirst.mono hR hS) (hrest.mono hR hS)

end

section Same

/-! Every tree is alike itself. -/

variable {S : ρ → ρ → Prop}

mutual

/-- A tree is alike itself, if its tokens and its references are related to themselves. -/
theorem Expr.alike_self (hR : ∀ t, R t t) (e : Expr ρ)
    (hS : ∀ reference ∈ e.references, S reference.1 reference.1) : e.Alike R S e := by
  cases e with
  | literal => exact .literal
  | grouping inner => exact .grouping (inner.alike_self hR hS)
  | unary operator operand => exact .unary (hR _) (operand.alike_self hR hS)
  | binary left operator right =>
    rw [Expr.references, List.forall_mem_append] at hS
    exact .binary (left.alike_self hR hS.1) (hR _) (right.alike_self hR hS.2)
  | logical left operator right =>
    rw [Expr.references, List.forall_mem_append] at hS
    exact .logical (left.alike_self hR hS.1) (hR _) (right.alike_self hR hS.2)
  | var ref name => exact .var (hS (ref, name) (List.mem_singleton_self _)) (hR _)
  | assign ref name value =>
    rw [Expr.references, List.forall_mem_append] at hS
    exact .assign (hS.2 (ref, name) (List.mem_singleton_self _)) (hR _) (value.alike_self hR hS.1)
  | call callee paren arguments =>
    rw [Expr.references, List.forall_mem_append] at hS
    exact .call (callee.alike_self hR hS.1) (hR _) (Expr.alikeAll_self hR arguments hS.2)

theorem Expr.alikeAll_self (hR : ∀ t, R t t) (es : List (Expr ρ))
    (hS : ∀ reference ∈ Expr.referencesAll es, S reference.1 reference.1) :
    Expr.AlikeAll R S es es := by
  cases es with
  | nil => exact .nil
  | cons e es =>
    rw [Expr.referencesAll, List.forall_mem_append] at hS
    exact .cons (e.alike_self hR hS.1) (Expr.alikeAll_self hR es hS.2)

end

mutual

theorem Stmt.alike_self (hR : ∀ t, R t t) (s : Stmt ρ)
    (hS : ∀ reference ∈ s.references, S reference.1 reference.1) : s.Alike R S s := by
  cases s with
  | expression e => exact .expression (e.alike_self hR hS)
  | print e => exact .print (e.alike_self hR hS)
  | var name initializer =>
    cases initializer with
    | none => exact .declared (hR _)
    | some e => exact .initialized (hR _) (e.alike_self hR hS)
  | block body => exact .block (Stmt.alikeAll_self hR body hS)
  | «if» condition thenBranch elseBranch =>
    cases elseBranch with
    | none =>
      rw [Stmt.references, List.forall_mem_append] at hS
      exact .ifThen (condition.alike_self hR hS.1) (thenBranch.alike_self hR hS.2)
    | some elseBranch =>
      rw [Stmt.references, List.forall_mem_append, List.forall_mem_append] at hS
      exact .ifElse (condition.alike_self hR hS.1) (thenBranch.alike_self hR hS.2.1)
        (elseBranch.alike_self hR hS.2.2)
  | «while» condition body =>
    rw [Stmt.references, List.forall_mem_append] at hS
    exact .while (condition.alike_self hR hS.1) (body.alike_self hR hS.2)
  | function name parameters body =>
    exact .function (hR _) (List.forall₂_same.mpr fun t _ => hR t) (Stmt.alikeAll_self hR body hS)
  | «return» keyword value =>
    cases value with
    | none => exact .finished (hR _)
    | some e => exact .returned (hR _) (e.alike_self hR hS)

/-- It is enough to know it of the references that occur. -/
theorem Stmt.alikeAll_self (hR : ∀ t, R t t) (ss : List (Stmt ρ))
    (hS : ∀ reference ∈ Stmt.referencesAll ss, S reference.1 reference.1) :
    Stmt.AlikeAll R S ss ss := by
  cases ss with
  | nil => exact .nil
  | cons s rest =>
    rw [Stmt.referencesAll, List.forall_mem_append] at hS
    exact .cons (s.alike_self hR hS.1) (Stmt.alikeAll_self hR rest hS.2)

end

end Same

section Flip

/-! A tree that is alike another has the other alike itself. -/

mutual

theorem Expr.Alike.flip {e : Expr ρ} {e' : Expr σ} (h : e.Alike R S e') :
    e'.Alike (flip R) (flip S) e := by
  cases h with
  | literal => exact .literal
  | grouping h => exact .grouping h.flip
  | unary hoperator h => exact .unary hoperator h.flip
  | binary hleft hoperator hright => exact .binary hleft.flip hoperator hright.flip
  | logical hleft hoperator hright => exact .logical hleft.flip hoperator hright.flip
  | var href hname => exact .var href hname
  | assign href hname hvalue => exact .assign href hname hvalue.flip
  | call hcallee hparen harguments => exact .call hcallee.flip hparen harguments.flip

theorem Expr.AlikeAll.flip {es : List (Expr ρ)} {es' : List (Expr σ)}
    (h : Expr.AlikeAll R S es es') : Expr.AlikeAll (flip R) (flip S) es' es := by
  cases h with
  | nil => exact .nil
  | cons hfirst hrest => exact .cons hfirst.flip hrest.flip

end

mutual

/-- The other way round as well. -/
theorem Stmt.Alike.flip {s : Stmt ρ} {s' : Stmt σ} (h : s.Alike R S s') :
    s'.Alike (flip R) (flip S) s := by
  cases h with
  | expression h => exact .expression h.flip
  | print h => exact .print h.flip
  | declared hname => exact .declared hname
  | initialized hname h => exact .initialized hname h.flip
  | block h => exact .block h.flip
  | ifThen hcondition hthen => exact .ifThen hcondition.flip hthen.flip
  | ifElse hcondition hthen helse => exact .ifElse hcondition.flip hthen.flip helse.flip
  | «while» hcondition hbody => exact .while hcondition.flip hbody.flip
  | function hname hparameters hbody =>
    exact .function hname (List.Forall₂.flip hparameters) hbody.flip
  | finished hkeyword => exact .finished hkeyword
  | returned hkeyword h => exact .returned hkeyword h.flip

theorem Stmt.AlikeAll.flip {ss : List (Stmt ρ)} {ss' : List (Stmt σ)}
    (h : Stmt.AlikeAll R S ss ss') : Stmt.AlikeAll (flip R) (flip S) ss' ss := by
  cases h with
  | nil => exact .nil
  | cons hfirst hrest => exact .cons hfirst.flip hrest.flip

end

end Flip

section Common

/-! Two trees that are both alike a third are alike each other. -/

variable {τ : Type} {S' : ρ → τ → Prop}

def Common {α β γ : Type} (R : α → β → Prop) (R' : α → γ → Prop) (b : β) (c : γ) : Prop :=
  ∃ a, R a b ∧ R' a c

/-- Two lists that correspond to a third correspond to each other. -/
theorem forall₂_common {ts us vs : List Token} (h : List.Forall₂ R ts us)
    (h' : List.Forall₂ R' ts vs) : List.Forall₂ (Common R R') us vs := by
  induction h generalizing vs with
  | nil =>
    cases h'
    exact .nil
  | cons hfirst _ ih =>
    cases h' with
    | cons hfirst' hrest' => exact .cons ⟨_, hfirst, hfirst'⟩ (ih hrest')

mutual

/-- Two trees that are alike a third are alike each other: tokens at one place have a token in
    common that both are related to. -/
theorem Expr.Alike.common {e : Expr ρ} {e' : Expr σ} {e'' : Expr τ} (h : e.Alike R S e')
    (h' : e.Alike R' S' e'') : e'.Alike (Common R R') (Common S S') e'' := by
  cases h with
  | literal =>
    cases h'
    exact .literal
  | grouping h =>
    cases h' with
    | grouping h' => exact .grouping (h.common h')
  | unary hoperator h =>
    cases h' with
    | unary hoperator' h' => exact .unary ⟨_, hoperator, hoperator'⟩ (h.common h')
  | binary hleft hoperator hright =>
    cases h' with
    | binary hleft' hoperator' hright' =>
      exact .binary (hleft.common hleft') ⟨_, hoperator, hoperator'⟩ (hright.common hright')
  | logical hleft hoperator hright =>
    cases h' with
    | logical hleft' hoperator' hright' =>
      exact .logical (hleft.common hleft') ⟨_, hoperator, hoperator'⟩ (hright.common hright')
  | var href hname =>
    cases h' with
    | var href' hname' => exact .var ⟨_, href, href'⟩ ⟨_, hname, hname'⟩
  | assign href hname hvalue =>
    cases h' with
    | assign href' hname' hvalue' =>
      exact .assign ⟨_, href, href'⟩ ⟨_, hname, hname'⟩ (hvalue.common hvalue')
  | call hcallee hparen harguments =>
    cases h' with
    | call hcallee' hparen' harguments' =>
      exact .call (hcallee.common hcallee') ⟨_, hparen, hparen'⟩ (harguments.common harguments')

theorem Expr.AlikeAll.common {es : List (Expr ρ)} {es' : List (Expr σ)} {es'' : List (Expr τ)}
    (h : Expr.AlikeAll R S es es') (h' : Expr.AlikeAll R' S' es es'') :
    Expr.AlikeAll (Common R R') (Common S S') es' es'' := by
  cases h with
  | nil =>
    cases h'
    exact .nil
  | cons hfirst hrest =>
    cases h' with
    | cons hfirst' hrest' => exact .cons (hfirst.common hfirst') (hrest.common hrest')

end

mutual

theorem Stmt.Alike.common {s : Stmt ρ} {s' : Stmt σ} {s'' : Stmt τ} (h : s.Alike R S s')
    (h' : s.Alike R' S' s'') : s'.Alike (Common R R') (Common S S') s'' := by
  cases h with
  | expression h =>
    cases h' with
    | expression h' => exact .expression (h.common h')
  | print h =>
    cases h' with
    | print h' => exact .print (h.common h')
  | declared hname =>
    cases h' with
    | declared hname' => exact .declared ⟨_, hname, hname'⟩
  | initialized hname h =>
    cases h' with
    | initialized hname' h' => exact .initialized ⟨_, hname, hname'⟩ (h.common h')
  | block h =>
    cases h' with
    | block h' => exact .block (h.common h')
  | ifThen hcondition hthen =>
    cases h' with
    | ifThen hcondition' hthen' =>
      exact .ifThen (hcondition.common hcondition') (hthen.common hthen')
  | ifElse hcondition hthen helse =>
    cases h' with
    | ifElse hcondition' hthen' helse' =>
      exact .ifElse (hcondition.common hcondition') (hthen.common hthen') (helse.common helse')
  | «while» hcondition hbody =>
    cases h' with
    | «while» hcondition' hbody' =>
      exact .while (hcondition.common hcondition') (hbody.common hbody')
  | function hname hparameters hbody =>
    cases h' with
    | function hname' hparameters' hbody' =>
      exact .function ⟨_, hname, hname'⟩ (forall₂_common hparameters hparameters')
        (hbody.common hbody')
  | finished hkeyword =>
    cases h' with
    | finished hkeyword' => exact .finished ⟨_, hkeyword, hkeyword'⟩
  | returned hkeyword h =>
    cases h' with
    | returned hkeyword' h' => exact .returned ⟨_, hkeyword, hkeyword'⟩ (h.common h')

theorem Stmt.AlikeAll.common {ss : List (Stmt ρ)} {ss' : List (Stmt σ)} {ss'' : List (Stmt τ)}
    (h : Stmt.AlikeAll R S ss ss') (h' : Stmt.AlikeAll R' S' ss ss'') :
    Stmt.AlikeAll (Common R R') (Common S S') ss' ss'' := by
  cases h with
  | nil =>
    cases h'
    exact .nil
  | cons hfirst hrest =>
    cases h' with
    | cons hfirst' hrest' => exact .cons (hfirst.common hfirst') (hrest.common hrest')

end

end Common

section Number

/-! Trees of one shape use up as many identities. -/

/-- As many identities lie between the first two as between the others. -/
def InStep (n n' m m' : Nat) : Prop :=
  ∃ k, m = n + k ∧ m' = n' + k

/-- The identities from these two on, up to a bound on the first, are related one by one. -/
def Paired (T : RefId → RefId → Prop) (last n n' : Nat) : Prop :=
  ∀ k, n + k < last → T (n + k) (n' + k)

variable {T : RefId → RefId → Prop} {last n n' m m' l l' : Nat}

theorem InStep.refl : InStep n n' n n' :=
  ⟨0, rfl, rfl⟩

/-- One more identity is drawn for both trees. -/
theorem InStep.succ (h : InStep n n' m m') : InStep n n' (m + 1) (m' + 1) := by
  obtain ⟨k, rfl, rfl⟩ := h
  exact ⟨k + 1, rfl, rfl⟩

theorem InStep.trans (h : InStep n n' m m') (h' : InStep m m' l l') : InStep n n' l l' := by
  obtain ⟨k, rfl, rfl⟩ := h
  obtain ⟨k', rfl, rfl⟩ := h'
  exact ⟨k + k', by omega, by omega⟩

/-- Identities that are still to be drawn stay paired. -/
theorem Paired.after (h : Paired T last n n') (hstep : InStep n n' m m') :
    Paired T last m m' := by
  obtain ⟨k, rfl, rfl⟩ := hstep
  intro k' hlt
  rw [Nat.add_assoc] at hlt
  rw [Nat.add_assoc, Nat.add_assoc]
  exact h (k + k') hlt

theorem Paired.head (h : Paired T last n n') (hlt : n < last) : T n n' :=
  h 0 hlt

mutual

/-- Trees that are alike are numbered in step, so that references at the same place have paired
    identities. -/
theorem Expr.Alike.number {n n' : Nat} {e : Expr ρ} {e' : Expr σ} (h : e.Alike R S e')
    (hpaired : Paired T last n n') (hlast : (e.number n).2 ≤ last) :
    (e.number n).1.Alike R T (e'.number n').1 ∧ InStep n n' (e.number n).2 (e'.number n').2 := by
  cases h with
  | literal => exact ⟨.literal, .refl⟩
  | grouping h =>
    obtain ⟨h, hstep⟩ := h.number hpaired hlast
    exact ⟨.grouping h, hstep⟩
  | unary hoperator h =>
    obtain ⟨h, hstep⟩ := h.number hpaired hlast
    exact ⟨.unary hoperator h, hstep⟩
  | binary hleft hoperator hright =>
    obtain ⟨hleft, hstep⟩ :=
      hleft.number hpaired (Nat.le_trans (Expr.numbered_number _ _).le hlast)
    obtain ⟨hright, hstep'⟩ := hright.number (hpaired.after hstep) hlast
    exact ⟨.binary hleft hoperator hright, hstep.trans hstep'⟩
  | logical hleft hoperator hright =>
    obtain ⟨hleft, hstep⟩ :=
      hleft.number hpaired (Nat.le_trans (Expr.numbered_number _ _).le hlast)
    obtain ⟨hright, hstep'⟩ := hright.number (hpaired.after hstep) hlast
    exact ⟨.logical hleft hoperator hright, hstep.trans hstep'⟩
  | var href hname => exact ⟨.var (hpaired.head hlast) hname, InStep.refl.succ⟩
  | assign href hname hvalue =>
    obtain ⟨hvalue, hstep⟩ := hvalue.number hpaired (Nat.le_of_succ_le hlast)
    exact ⟨.assign ((hpaired.after hstep).head hlast) hname hvalue, hstep.succ⟩
  | call hcallee hparen harguments =>
    obtain ⟨hcallee, hstep⟩ :=
      hcallee.number hpaired (Nat.le_trans (Expr.numbered_numberAll _ _).le hlast)
    obtain ⟨harguments, hstep'⟩ := harguments.number (hpaired.after hstep) hlast
    exact ⟨.call hcallee hparen harguments, hstep.trans hstep'⟩

theorem Expr.AlikeAll.number {n n' : Nat} {es : List (Expr ρ)} {es' : List (Expr σ)}
    (h : Expr.AlikeAll R S es es') (hpaired : Paired T last n n')
    (hlast : (Expr.numberAll n es).2 ≤ last) :
    Expr.AlikeAll R T (Expr.numberAll n es).1 (Expr.numberAll n' es').1 ∧
      InStep n n' (Expr.numberAll n es).2 (Expr.numberAll n' es').2 := by
  cases h with
  | nil => exact ⟨.nil, .refl⟩
  | cons hfirst hrest =>
    obtain ⟨hfirst, hstep⟩ :=
      hfirst.number hpaired (Nat.le_trans (Expr.numbered_numberAll _ _).le hlast)
    obtain ⟨hrest, hstep'⟩ := hrest.number (hpaired.after hstep) hlast
    exact ⟨.cons hfirst hrest, hstep.trans hstep'⟩

end

mutual

theorem Stmt.Alike.number {n n' : Nat} {s : Stmt ρ} {s' : Stmt σ} (h : s.Alike R S s')
    (hpaired : Paired T last n n') (hlast : (s.number n).2 ≤ last) :
    (s.number n).1.Alike R T (s'.number n').1 ∧ InStep n n' (s.number n).2 (s'.number n').2 := by
  cases h with
  | expression h =>
    obtain ⟨h, hstep⟩ := h.number hpaired hlast
    exact ⟨.expression h, hstep⟩
  | print h =>
    obtain ⟨h, hstep⟩ := h.number hpaired hlast
    exact ⟨.print h, hstep⟩
  | declared hname => exact ⟨.declared hname, .refl⟩
  | initialized hname h =>
    obtain ⟨h, hstep⟩ := h.number hpaired hlast
    exact ⟨.initialized hname h, hstep⟩
  | block h =>
    obtain ⟨h, hstep⟩ := h.number hpaired hlast
    exact ⟨.block h, hstep⟩
  | ifThen hcondition hthen =>
    obtain ⟨hcondition, hstep⟩ :=
      hcondition.number hpaired (Nat.le_trans (Stmt.numbered_number _ _).le hlast)
    obtain ⟨hthen, hstep'⟩ := hthen.number (hpaired.after hstep) hlast
    exact ⟨.ifThen hcondition hthen, hstep.trans hstep'⟩
  | @ifElse first _ second _ e _ hcondition hthen helse =>
    have hother : (first.number (e.number n).2).2 ≤ last :=
      Nat.le_trans (Stmt.numbered_number _ second).le hlast
    obtain ⟨hcondition, hstep⟩ :=
      hcondition.number hpaired (Nat.le_trans (Stmt.numbered_number _ _).le hother)
    obtain ⟨hthen, hstep'⟩ := hthen.number (hpaired.after hstep) hother
    obtain ⟨helse, hstep''⟩ := helse.number ((hpaired.after hstep).after hstep') hlast
    exact ⟨.ifElse hcondition hthen helse, (hstep.trans hstep').trans hstep''⟩
  | «while» hcondition hbody =>
    obtain ⟨hcondition, hstep⟩ :=
      hcondition.number hpaired (Nat.le_trans (Stmt.numbered_number _ _).le hlast)
    obtain ⟨hbody, hstep'⟩ := hbody.number (hpaired.after hstep) hlast
    exact ⟨.while hcondition hbody, hstep.trans hstep'⟩
  | function hname hparameters hbody =>
    obtain ⟨hbody, hstep⟩ := hbody.number hpaired hlast
    exact ⟨.function hname hparameters hbody, hstep⟩
  | finished hkeyword => exact ⟨.finished hkeyword, .refl⟩
  | returned hkeyword h =>
    obtain ⟨h, hstep⟩ := h.number hpaired hlast
    exact ⟨.returned hkeyword h, hstep⟩

/-- Programs that are alike are numbered in step. -/
theorem Stmt.AlikeAll.number {n n' : Nat} {ss : List (Stmt ρ)} {ss' : List (Stmt σ)}
    (h : Stmt.AlikeAll R S ss ss') (hpaired : Paired T last n n')
    (hlast : (Stmt.numberAll n ss).2 ≤ last) :
    Stmt.AlikeAll R T (Stmt.numberAll n ss).1 (Stmt.numberAll n' ss').1 ∧
      InStep n n' (Stmt.numberAll n ss).2 (Stmt.numberAll n' ss').2 := by
  cases h with
  | nil => exact ⟨.nil, .refl⟩
  | cons hfirst hrest =>
    obtain ⟨hfirst, hstep⟩ :=
      hfirst.number hpaired (Nat.le_trans (Stmt.numbered_numberAll _ _).le hlast)
    obtain ⟨hrest, hstep'⟩ := hrest.number (hpaired.after hstep) hlast
    exact ⟨.cons hfirst hrest, hstep.trans hstep'⟩

end

section Plain

/-! A tree is alike the same tree with its references numbered. -/

variable {S : ρ → RefId → Prop}

mutual

/-- Numbering changes references only. -/
theorem Expr.alike_number (hR : ∀ t, R t t) (hS : ∀ r r', S r r') (next : RefId) (e : Expr ρ) :
    e.Alike R S (e.number next).1 := by
  cases e with
  | literal => exact .literal
  | grouping inner => exact .grouping (inner.alike_number hR hS next)
  | unary operator operand => exact .unary (hR _) (operand.alike_number hR hS next)
  | binary left operator right =>
    exact .binary (left.alike_number hR hS next) (hR _) (right.alike_number hR hS _)
  | logical left operator right =>
    exact .logical (left.alike_number hR hS next) (hR _) (right.alike_number hR hS _)
  | var ref name => exact .var (hS _ _) (hR _)
  | assign ref name value => exact .assign (hS _ _) (hR _) (value.alike_number hR hS next)
  | call callee paren arguments =>
    exact .call (callee.alike_number hR hS next) (hR _) (Expr.alikeAll_number hR hS _ arguments)

theorem Expr.alikeAll_number (hR : ∀ t, R t t) (hS : ∀ r r', S r r') (next : RefId)
    (es : List (Expr ρ)) : Expr.AlikeAll R S es (Expr.numberAll next es).1 := by
  cases es with
  | nil => exact .nil
  | cons e es => exact .cons (e.alike_number hR hS next) (Expr.alikeAll_number hR hS _ es)

end

mutual

theorem Stmt.alike_number (hR : ∀ t, R t t) (hS : ∀ r r', S r r') (next : RefId) (s : Stmt ρ) :
    s.Alike R S (s.number next).1 := by
  cases s with
  | expression e => exact .expression (e.alike_number hR hS next)
  | print e => exact .print (e.alike_number hR hS next)
  | var name initializer =>
    cases initializer with
    | none => exact .declared (hR _)
    | some e => exact .initialized (hR _) (e.alike_number hR hS next)
  | block body => exact .block (Stmt.alikeAll_number hR hS next body)
  | «if» condition thenBranch elseBranch =>
    have hcondition := condition.alike_number hR hS next
    cases elseBranch with
    | none => exact .ifThen hcondition (thenBranch.alike_number hR hS _)
    | some elseBranch =>
      exact .ifElse hcondition (thenBranch.alike_number hR hS _) (elseBranch.alike_number hR hS _)
  | «while» condition body =>
    exact .while (condition.alike_number hR hS next) (body.alike_number hR hS _)
  | function name parameters body =>
    exact .function (hR _) (List.forall₂_same.mpr fun t _ => hR t)
      (Stmt.alikeAll_number hR hS next body)
  | «return» keyword value =>
    cases value with
    | none => exact .finished (hR _)
    | some e => exact .returned (hR _) (e.alike_number hR hS next)

theorem Stmt.alikeAll_number (hR : ∀ t, R t t) (hS : ∀ r r', S r r') (next : RefId)
    (ss : List (Stmt ρ)) : Stmt.AlikeAll R S ss (Stmt.numberAll next ss).1 := by
  cases ss with
  | nil => exact .nil
  | cons s rest => exact .cons (s.alike_number hR hS next) (Stmt.alikeAll_number hR hS _ rest)

end

end Plain

end Number

section References

/-! The references of two trees of one shape come in pairs, and what is true of all pairs relates
the trees. -/

/-- The references on both sides have related names, and what is true of all pairs relates the
    trees. -/
structure Pairs (R : Token → Token → Prop) (alike : (ρ → σ → Prop) → Prop)
    (references : List (ρ × Token)) (references' : List (σ × Token)) : Prop where
  names : List.Forall₂ (fun p p' => R p.2 p'.2) references references'
  relate : ∀ T : ρ → σ → Prop, (∀ p ∈ references.zip references', T p.1.1 p.2.1) → alike T

namespace Pairs

variable {A B C : (ρ → σ → Prop) → Prop} {refs other : List (ρ × Token)}
  {refs' other' : List (σ × Token)}

theorem none (h : ∀ T, A T) : Pairs R A [] [] :=
  ⟨.nil, fun T _ => h T⟩

theorem imp (h : Pairs R A refs refs') (hAB : ∀ T, A T → B T) : Pairs R B refs refs' :=
  ⟨h.names, fun T hT => hAB T (h.relate T hT)⟩

theorem one {ref : ρ} {ref' : σ} {name name' : Token} (hname : R name name')
    (h : ∀ T, T ref ref' → A T) : Pairs R A [(ref, name)] [(ref', name')] :=
  ⟨.cons hname .nil, fun T hT => h T (hT ((ref, name), (ref', name')) (List.mem_singleton_self _))⟩

theorem both (h : Pairs R A refs refs') (h' : Pairs R B other other')
    (hC : ∀ T, A T → B T → C T) : Pairs R C (refs ++ other) (refs' ++ other') := by
  refine ⟨List.rel_append h.names h'.names, ?_⟩
  intro T hT
  rw [List.zip_append h.names.length_eq, List.forall_mem_append] at hT
  exact hC T (h.relate T hT.1) (h'.relate T hT.2)

end Pairs

mutual

/-- The references of trees that are alike come in pairs, and the trees are alike by whatever
    relates all pairs. -/
theorem Expr.Alike.pairs {e : Expr ρ} {e' : Expr σ} (h : e.Alike R S e') :
    Pairs R (fun T => e.Alike R T e') e.references e'.references := by
  cases h with
  | literal => exact .none fun _ => .literal
  | grouping h => exact h.pairs.imp fun _ => .grouping
  | unary hoperator h => exact h.pairs.imp fun _ => .unary hoperator
  | binary hleft hoperator hright =>
    exact hleft.pairs.both hright.pairs fun _ h => .binary h hoperator
  | logical hleft hoperator hright =>
    exact hleft.pairs.both hright.pairs fun _ h => .logical h hoperator
  | var _ hname => exact .one hname fun _ href => .var href hname
  | assign _ hname hvalue =>
    exact hvalue.pairs.both (.one hname fun _ href => href) fun _ h href => .assign href hname h
  | call hcallee hparen harguments =>
    exact hcallee.pairs.both harguments.pairs fun _ h => .call h hparen

theorem Expr.AlikeAll.pairs {es : List (Expr ρ)} {es' : List (Expr σ)}
    (h : Expr.AlikeAll R S es es') :
    Pairs R (fun T => Expr.AlikeAll R T es es') (Expr.referencesAll es)
      (Expr.referencesAll es') := by
  cases h with
  | nil => exact .none fun _ => .nil
  | cons hfirst hrest => exact hfirst.pairs.both hrest.pairs fun _ => .cons

end

mutual

theorem Stmt.Alike.pairs {s : Stmt ρ} {s' : Stmt σ} (h : s.Alike R S s') :
    Pairs R (fun T => s.Alike R T s') s.references s'.references := by
  cases h with
  | expression h => exact h.pairs.imp fun _ => .expression
  | print h => exact h.pairs.imp fun _ => .print
  | declared hname => exact .none fun _ => .declared hname
  | initialized hname h => exact h.pairs.imp fun _ => .initialized hname
  | block h => exact h.pairs.imp fun _ => .block
  | ifThen hcondition hthen => exact hcondition.pairs.both hthen.pairs fun _ => .ifThen
  | ifElse hcondition hthen helse =>
    refine hcondition.pairs.both (hthen.pairs.both helse.pairs fun _ => And.intro) ?_
    exact fun _ h hbranches => .ifElse h hbranches.1 hbranches.2
  | «while» hcondition hbody => exact hcondition.pairs.both hbody.pairs fun _ => .while
  | function hname hparameters hbody =>
    exact hbody.pairs.imp fun _ => .function hname hparameters
  | finished hkeyword => exact .none fun _ => .finished hkeyword
  | returned hkeyword h => exact h.pairs.imp fun _ => .returned hkeyword

theorem Stmt.AlikeAll.pairs {ss : List (Stmt ρ)} {ss' : List (Stmt σ)}
    (h : Stmt.AlikeAll R S ss ss') :
    Pairs R (fun T => Stmt.AlikeAll R T ss ss') (Stmt.referencesAll ss)
      (Stmt.referencesAll ss') := by
  cases h with
  | nil => exact .none fun _ => .nil
  | cons hfirst hrest => exact hfirst.pairs.both hrest.pairs fun _ => .cons

end

end References

end Lox

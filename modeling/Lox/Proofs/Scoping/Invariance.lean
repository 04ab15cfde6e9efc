import Lox.Proofs.Scoping.Lookup

namespace Lox

/-- The same distances, and as many errors. -/
def Findings.Same (f f' : Findings) : Prop :=
  f.Alike (fun _ _ => True) (fun ref ref' => ref' = ref) f'

namespace Findings.Same

variable {f f' : Findings}

theorem refl (f : Findings) : f.Same f :=
  ⟨List.forall₂_same.mpr fun _ _ => ⟨rfl, rfl⟩, List.forall₂_same.mpr fun _ _ => ⟨trivial, rfl⟩⟩

/-- Findings that are the same up to positions assign the same distances. -/
theorem distances_eq (h : f.Same f') : f'.distances = f.distances :=
  Alike.distances_eq h fun _ _ heq => heq

end Findings.Same

variable {r : Respelling} {inner outer : List Scope}

theorem Respelling.scopes_cons (r : Respelling) (hinner : inner ≠ []) (S : Scope) :
    r.scopes (S :: inner) = S :: r.scopes inner := by
  cases inner with
  | nil => exact absurd rfl hinner
  | cons T inner => rfl

/-- A reference that does not read the new name finds the same binding before and after the
    respelling. -/
theorem Respelling.same_reference (hunused : r.Unused inner) (ref : RefId) {name : Token}
    (hname : name.lexeme ≠ r.new) :
    (Scope.ofReference (inner ++ outer) ref name).Same
      (Scope.ofReference (r.scopes inner ++ outer) ref (r.reference inner name)) := by
  unfold Scope.ofReference
  rw [distance?_respelled hunused hname]
  exact .refl _

mutual

/-- Scoping finds the same in an expression and in its respelling, which avoids the new name. -/
theorem Expr.findings_respell (hunused : r.Unused inner) (e : Expr RefId) (h : e.Avoids r.new) :
    (e.findings (inner ++ outer)).Same
      ((e.respell r inner).findings (r.scopes inner ++ outer)) := by
  cases e with
  | literal => exact .refl _
  | grouping e =>
    cases h with
    | grouping h => exact Expr.findings_respell hunused e h
  | unary operator operand =>
    cases h with
    | unary _ h => exact Expr.findings_respell hunused operand h
  | binary left operator right =>
    cases h with
    | binary hleft _ hright =>
      exact (Expr.findings_respell hunused left hleft).append
        (Expr.findings_respell hunused right hright)
  | logical left operator right =>
    cases h with
    | logical hleft _ hright =>
      exact (Expr.findings_respell hunused left hleft).append
        (Expr.findings_respell hunused right hright)
  | var ref name =>
    cases h with
    | var _ hname =>
      refine Findings.Alike.append ⟨.nil, ?_⟩ (r.same_reference hunused ref hname.2)
      dsimp only
      rw [Respelling.isPending_respelled hunused hname.2]
      split
      · exact .cons ⟨trivial, rfl⟩ .nil
      · exact .nil
  | assign ref name value =>
    cases h with
    | assign _ hname hvalue =>
      exact (Expr.findings_respell hunused value hvalue).append
        (r.same_reference hunused ref hname.2)
  | call callee paren arguments =>
    cases h with
    | call hcallee _ harguments =>
      exact (Expr.findings_respell hunused callee hcallee).append
        (Expr.findingsAll_respellAll hunused arguments harguments)

theorem Expr.findingsAll_respellAll (hunused : r.Unused inner) (es : List (Expr RefId))
    (h : Expr.AvoidsAll r.new es) :
    (Expr.findingsAll (inner ++ outer) es).Same
      (Expr.findingsAll (r.scopes inner ++ outer) (Expr.respellAll r inner es)) := by
  cases es with
  | nil => exact .refl _
  | cons e es =>
    cases h with
    | cons hfirst hrest =>
      exact (Expr.findings_respell hunused e hfirst).append
        (Expr.findingsAll_respellAll hunused es hrest)

end

/-- What scoping finds before and after respelling: the same, and corresponding scopes. -/
structure Respelling.Keeps (r : Respelling) (inner outer : List Scope)
    (found found' : Findings × List Scope) (after : List Scope) : Prop where
  findings : found.1.Same found'.1
  scopes : found.2 = after ++ outer
  respelled : found'.2 = r.scopes after ++ outer
  length : after.length = inner.length
  unused : r.Unused after

/-- A walk that keeps the respelled scope in view leaves it open. -/
theorem Respelling.Keeps.ne_nil {found found' : Findings × List Scope} {after : List Scope}
    (h : r.Keeps inner outer found found' after) (hinner : inner ≠ []) : after ≠ [] := by
  rw [← List.length_pos_iff, h.length, List.length_pos_iff]
  exact hinner

/-- Declaring a variable before or after respelling. -/
theorem Respelling.record_append (hinner : inner ≠ []) (name : Token) (defined : Bool) :
    Scope.record name defined (inner ++ outer) = Scope.record name defined inner ++ outer := by
  cases inner with
  | nil => exact absurd rfl hinner
  | cons S inner => rfl

/-- Recording a name opens and closes no scope. -/
theorem Respelling.record_ne_nil (hinner : inner ≠ []) (name : Token) (defined : Bool) :
    Scope.record name defined inner ≠ [] := by
  rw [← List.length_pos_iff, length_record, List.length_pos_iff]
  exact hinner

/-- Whether a declared variable is respelled depends on the number of scopes around it alone. -/
theorem Respelling.declared_of_length {after : List Scope} (h : after.length = inner.length)
    (name : Token) : r.declared after name = r.declared inner name := by
  rw [declared, declared, h]

/-- The new name stays unused when a scope without an entry for it is opened. -/
theorem Respelling.unused_cons {S : Scope} (hS : ∀ entry ∈ S, entry.1 ≠ r.new)
    (hunused : r.Unused inner) : r.Unused (S :: inner) :=
  List.forall_mem_cons.mpr ⟨hS, hunused⟩

namespace Respelling.Keeps

/-- Nothing is declared: the scopes are the ones there were. -/
theorem unchanged (outer : List Scope) {f f' : Findings} (h : f.Same f')
    (hunused : r.Unused inner) :
    r.Keeps inner outer (f, inner ++ outer) (f', r.scopes inner ++ outer) inner :=
  ⟨h, rfl, rfl, rfl, hunused⟩

/-- The same scopes, with other findings. -/
theorem finding {found found' : Findings × List Scope} {after : List Scope}
    (h : r.Keeps inner outer found found' after) {f f' : Findings} (hfound : f.Same f') :
    r.Keeps inner outer (f, found.2) (f', found'.2) after :=
  ⟨hfound, h.scopes, h.respelled, h.length, h.unused⟩

/-- One more name is recorded, under its old spelling and under its new one. -/
theorem record {found found' : Findings × List Scope} {after : List Scope}
    (h : r.Keeps inner outer found found' after) (hinner : inner ≠ []) {name : Token}
    (hname : name.lexeme ≠ r.new) (defined : Bool) :
    r.Keeps inner outer (found.1, Scope.record name defined found.2)
      (found'.1, Scope.record (r.declared inner name) defined found'.2)
      (Scope.record name defined after) where
  findings := h.findings
  scopes := by rw [h.scopes, Respelling.record_append (h.ne_nil hinner)]
  respelled := by
    rw [h.respelled, ← Respelling.declared_of_length h.length,
      Respelling.scopes_record (h.ne_nil hinner)]
  length := (Respelling.length_record ..).trans h.length
  unused := Respelling.unused_record h.unused hname defined

/-- One step after another: the second starts from the scopes that the first leaves. -/
theorem trans {first first' second second' : Findings × List Scope} {between after : List Scope}
    (h : r.Keeps inner outer first first' between)
    (h' : r.Keeps between outer second second' after) :
    r.Keeps inner outer (first.1 ++ second.1, second.2) (first'.1 ++ second'.1, second'.2)
      after :=
  ⟨h.findings.append h'.findings, h'.scopes, h'.respelled, h'.length.trans h.length, h'.unused⟩

end Respelling.Keeps

mutual

/-- Scoping a statement finds the same as scoping its respelling, and both leave related scopes
    behind. -/
theorem Stmt.findings_respell {inner : List Scope} (outer : List Scope) (hinner : inner ≠ [])
    (hunused : r.Unused inner) (inFunction : Bool) (s : Stmt RefId)
    (hfunction : inner.length = 1 → ¬ s.declaresFunction r.old) (h : s.Avoids r.new) :
    r.Keeps inner outer (s.findings inFunction (inner ++ outer))
      ((s.respell r inner).1.findings inFunction (r.scopes inner ++ outer))
      (s.respell r inner).2 := by
  cases s with
  | expression e =>
    cases h with
    | expression h => exact .unchanged outer (e.findings_respell hunused h) hunused
  | print e =>
    cases h with
    | print h => exact .unchanged outer (e.findings_respell hunused h) hunused
  | var name initializer =>
    cases initializer with
    | none =>
      cases h with
      | declared hname =>
        have hdeclared := (Respelling.Keeps.unchanged outer (.refl .none) hunused).record hinner
          hname.2 false
        exact hdeclared.record hinner hname.2 true
    | some e =>
      cases h with
      | initialized hname h =>
        have hdeclared := (Respelling.Keeps.unchanged outer (.refl .none) hunused).record hinner
          hname.2 false
        have hvalue := @Expr.findings_respell r _ outer hdeclared.unused e h
        rw [← hdeclared.scopes, ← hdeclared.respelled] at hvalue
        exact (hdeclared.finding hvalue).record hinner hname.2 true
  | block body =>
    cases h with
    | block h =>
      have hdeep : ([] :: inner).length = 1 → ∀ s ∈ body, ¬ s.declaresFunction r.old := by
        simp [hinner]
      have hbody := Stmt.findingsAll_respellAll outer (List.cons_ne_nil [] inner)
        (Respelling.unused_cons (by simp) hunused) inFunction body hdeep h
      rw [r.scopes_cons hinner] at hbody
      exact .unchanged outer hbody.findings hunused
  | «if» condition thenBranch elseBranch =>
    cases elseBranch with
    | none =>
      cases h with
      | ifThen hcondition hthen =>
        have hthen' := Stmt.findings_respell outer hinner hunused inFunction thenBranch hfunction
          hthen
        exact hthen'.finding
          ((condition.findings_respell hunused hcondition).append hthen'.findings)
    | some elseBranch =>
      cases h with
      | ifElse hcondition hthen helse =>
        have hthen' := Stmt.findings_respell outer hinner hunused inFunction thenBranch
          (fun hlength hdeclares => hfunction hlength (.inl hdeclares)) hthen
        -- The branches are no scopes: the second one sees what the first one declares.
        have helse' := Stmt.findings_respell outer (hthen'.ne_nil hinner) hthen'.unused inFunction
          elseBranch (fun hlength hdeclares => hfunction (hthen'.length ▸ hlength) (.inr hdeclares))
          helse
        rw [← hthen'.scopes, ← hthen'.respelled] at helse'
        have hbranches := hthen'.trans helse'
        exact hbranches.finding
          ((condition.findings_respell hunused hcondition).append hbranches.findings)
  | «while» condition body =>
    cases h with
    | «while» hcondition hbody =>
      have hbody' := Stmt.findings_respell outer hinner hunused inFunction body hfunction hbody
      exact hbody'.finding
        ((condition.findings_respell hunused hcondition).append hbody'.findings)
  | function name parameters body =>
    cases h with
    | function hname hparameters hbody =>
      have hnamed := (Respelling.Keeps.unchanged outer (.refl .none) hunused).record
        hinner hname.2 true
      rw [Respelling.declared_of_ne hfunction] at hnamed
      have hnonempty := hnamed.ne_nil hinner
      have hparameters' := Respelling.unused_ofParameters hparameters
      have hdeep : (Scope.ofParameters parameters :: Scope.record name true inner).length = 1 →
          ∀ s ∈ body, ¬ s.declaresFunction r.old := by
        simp [hnonempty]
      have hbody' := Stmt.findingsAll_respellAll outer (List.cons_ne_nil _ _)
        (Respelling.unused_cons hparameters' hnamed.unused) true body hdeep hbody
      rw [r.scopes_cons hnonempty, List.cons_append, List.cons_append, ← hnamed.scopes,
        ← hnamed.respelled] at hbody'
      exact hnamed.finding hbody'.findings
  | «return» keyword value =>
    cases value with
    | none => exact .unchanged outer (.refl _) hunused
    | some e =>
      cases h with
      | returned _ h =>
        exact .unchanged outer ((Findings.Same.refl _).append (e.findings_respell hunused h))
          hunused

theorem Stmt.findingsAll_respellAll {inner : List Scope} (outer : List Scope)
    (hinner : inner ≠ []) (hunused : r.Unused inner) (inFunction : Bool) (ss : List (Stmt RefId))
    (hfunctions : inner.length = 1 → ∀ s ∈ ss, ¬ s.declaresFunction r.old)
    (h : Stmt.AvoidsAll r.new ss) :
    r.Keeps inner outer (Stmt.findingsAll inFunction (inner ++ outer) ss)
      (Stmt.findingsAll inFunction (r.scopes inner ++ outer) (Stmt.respellAll r inner ss).1)
      (Stmt.respellAll r inner ss).2 := by
  cases ss with
  | nil => exact .unchanged outer (.refl _) hunused
  | cons s rest =>
    cases h with
    | cons hfirst hrest =>
      have hfirst' := Stmt.findings_respell outer hinner hunused inFunction s
        (fun hlength => hfunctions hlength s (List.mem_cons_self ..)) hfirst
      have hrest' := Stmt.findingsAll_respellAll outer (hfirst'.ne_nil hinner) hfirst'.unused
        inFunction rest (fun hlength t ht =>
          hfunctions (hfirst'.length ▸ hlength) t (List.mem_cons_of_mem _ ht)) hrest
      rw [← hfirst'.scopes, ← hfirst'.respelled] at hrest'
      exact hfirst'.trans hrest'

end

mutual

/-- The same for a statement that holds the respelled scope somewhere inside itself. -/
theorem Stmt.Respelled.findings {s s' : Stmt RefId} (h : s.Respelled r s')
    (havoids : s.Avoids r.new) (inFunction : Bool) (scopes : List Scope) :
    (s.findings inFunction scopes).1.Same (s'.findings inFunction scopes).1 ∧
      (s'.findings inFunction scopes).2 = (s.findings inFunction scopes).2 := by
  cases h with
  | @block body hfunctions =>
    cases havoids with
    | block havoids =>
      have hbody := Stmt.findingsAll_respellAll scopes (List.cons_ne_nil [] [])
        (r := r) (by simp [Respelling.Unused]) inFunction body (fun _ => hfunctions) havoids
      exact ⟨hbody.findings, rfl⟩
  | @function body name parameters hfunctions =>
    cases havoids with
    | function hname hparameters havoids =>
      have hparameters' := Respelling.unused_ofParameters hparameters
      have hunused : r.Unused [Scope.ofParameters parameters] :=
        Respelling.unused_cons hparameters' (by simp [Respelling.Unused])
      have hbody := Stmt.findingsAll_respellAll (Scope.record name true scopes)
        (List.cons_ne_nil _ _) hunused true body (fun _ => hfunctions) havoids
      refine ⟨?_, rfl⟩
      simp only [Stmt.findings, Respelling.ofParameters_respelled]
      exact hbody.findings
  | inBlock h =>
    cases havoids with
    | block havoids => exact ⟨(h.findings havoids inFunction _).1, rfl⟩
  | inFunction h =>
    cases havoids with
    | function _ _ havoids => exact ⟨(h.findings havoids true _).1, rfl⟩
  | inThen h =>
    cases havoids with
    | ifThen _ hthen =>
      obtain ⟨hfindings, hscopes⟩ := h.findings hthen inFunction scopes
      exact ⟨(Findings.Same.refl _).append hfindings, hscopes⟩
    | ifElse _ hthen _ =>
      obtain ⟨hfindings, hscopes⟩ := h.findings hthen inFunction scopes
      simp only [Stmt.findings, hscopes, and_true]
      exact (Findings.Same.refl _).append (hfindings.append (Findings.Same.refl _))
  | inElse h =>
    cases havoids with
    | ifElse _ _ helse =>
      obtain ⟨hfindings, hscopes⟩ := h.findings helse inFunction _
      exact ⟨(Findings.Same.refl _).append ((Findings.Same.refl _).append hfindings), hscopes⟩
  | inWhile h =>
    cases havoids with
    | «while» _ hbody =>
      obtain ⟨hfindings, hscopes⟩ := h.findings hbody inFunction scopes
      exact ⟨(Findings.Same.refl _).append hfindings, hscopes⟩

theorem Stmt.RespelledAll.findings {ss ss' : List (Stmt RefId)} (h : Stmt.RespelledAll r ss ss')
    (havoids : Stmt.AvoidsAll r.new ss) (inFunction : Bool) (scopes : List Scope) :
    (Stmt.findingsAll inFunction scopes ss).1.Same (Stmt.findingsAll inFunction scopes ss').1 ∧
      (Stmt.findingsAll inFunction scopes ss').2 = (Stmt.findingsAll inFunction scopes ss).2 := by
  cases h with
  | first h =>
    cases havoids with
    | cons hfirst _ =>
      obtain ⟨hfindings, hscopes⟩ := h.findings hfirst inFunction scopes
      simp only [Stmt.findingsAll, hscopes, and_true]
      exact hfindings.append (Findings.Same.refl _)
  | rest h =>
    cases havoids with
    | cons _ hrest =>
      obtain ⟨hfindings, hscopes⟩ := h.findings hrest inFunction _
      exact ⟨(Findings.Same.refl _).append hfindings, hscopes⟩

end

/-- Scoping finds the same in a program whose variables are respelled. -/
theorem findingsOf_respelled {ss ss' : List (Stmt RefId)} (h : Stmt.RespelledAll r ss ss')
    (havoids : Stmt.AvoidsAll r.new ss) : (findingsOf ss).Same (findingsOf ss') :=
  (h.findings havoids false []).1

end Lox

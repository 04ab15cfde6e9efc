import Lox.Proofs.Execution.Simulation

/-!
Programs side by side. They have one shape and the same frames in the same places, but may call a
variable by different names. What a reference means is then settled by the namings of the frames
around it, and by the entry that scoping made for it. Such programs print the same, and end with
corresponding values or with the same problem at corresponding tokens.
-/

namespace Lox

/-- How two runs correspond: which tokens do, and which do as the names of references, which
    references have the same entry, and what the second machine had printed when the first had
    printed nothing. -/
structure Parallel where
  token : Token → Token → Prop
  sameText : ∀ t t', token t t' → t.SameText t'
  named : Token → Token → Prop
  refs : RefId → RefId → Option Nat → Prop
  before : String

namespace Parallel

variable (P : Parallel)

section Trees

variable (c : List Naming)

/-- References that lead to corresponding variables. -/
structure References (ref : RefId) (name : Token) (ref' : RefId) (name' : Token) : Prop where
  named : P.named name name'
  exists_entry : ∃ entry, P.refs ref ref' entry ∧
    (Naming.ofEntry c entry).Same name.lexeme name'.lexeme

abbrev Expressions : Expr RefId → Expr RefId → Prop :=
  Expr.Related P.token (P.References c)

abbrev ExpressionsAll : List (Expr RefId) → List (Expr RefId) → Prop :=
  Expr.RelatedAll P.token (P.References c)

end Trees

mutual

/-- Statements that do corresponding things. The name of a function is shown, so it is the same. -/
inductive Statements : List Naming → Stmt RefId → Stmt RefId → Prop
  | expression (h : P.Expressions c e e') : Statements c (.expression e) (.expression e')
  | print (h : P.Expressions c e e') : Statements c (.print e) (.print e')
  | declared (hname : (Naming.innermost c).Same name.lexeme name'.lexeme) :
      Statements c (.var name none) (.var name' none)
  | initialized (hname : (Naming.innermost c).Same name.lexeme name'.lexeme)
      (h : P.Expressions c e e') : Statements c (.var name (some e)) (.var name' (some e'))
  | block (N : Naming) (h : StatementsAll (N :: c) body body') :
      Statements c (.block body) (.block body')
  | ifThen (hcondition : P.Expressions c e e') (hthen : Statements c s s') :
      Statements c (.if e s none) (.if e' s' none)
  | ifElse (hcondition : P.Expressions c e e') (hthen : Statements c s s')
      (helse : Statements c t t') : Statements c (.if e s (some t)) (.if e' s' (some t'))
  | while (hcondition : P.Expressions c e e') (hbody : Statements c s s') :
      Statements c (.while e s) (.while e' s')
  | function (N : Naming) (hlexeme : name'.lexeme = name.lexeme)
      (hname : (Naming.innermost c).Same name.lexeme name'.lexeme)
      (hparameters : N.Parameters parameters parameters')
      (hbody : StatementsAll (N :: c) body body') :
      Statements c (.function name parameters body) (.function name' parameters' body')
  | finished : Statements c (.return keyword none) (.return keyword' none)
  | returned (h : P.Expressions c e e') :
      Statements c (.return keyword (some e)) (.return keyword' (some e'))

inductive StatementsAll : List Naming → List (Stmt RefId) → List (Stmt RefId) → Prop
  | nil : StatementsAll c [] []
  | cons (hfirst : Statements c s s') (hrest : StatementsAll c rest rest') :
      StatementsAll c (s :: rest) (s' :: rest')

end

variable {P} in
theorem StatementsAll.forall₂ {c : List Naming} {ss ss' : List (Stmt RefId)}
    (h : P.StatementsAll c ss ss') : List.Forall₂ (P.Statements c) ss ss' := by
  induction ss generalizing ss' with
  | nil =>
    cases h
    exact .nil
  | cons s ss ih =>
    cases h with
    | cons hfirst hrest => exact .cons hfirst (ih hrest)

section Mono

/-! What corresponds still does when more tokens do and more references have the same entry. -/

structure Le (P Q : Parallel) : Prop where
  token : ∀ t t', P.token t t' → Q.token t t'
  named : ∀ t t', P.named t t' → Q.named t t'
  refs : ∀ r r' entry, P.refs r r' entry → Q.refs r r' entry

variable {P} {Q : Parallel} {c : List Naming}

/-- A reference leads to the same variable, whatever else is known of tokens and entries. -/
theorem References.mono {ref ref' : RefId} {name name' : Token}
    (h : P.References c ref name ref' name') (hle : P.Le Q) :
    Q.References c ref name ref' name' := by
  obtain ⟨hname, entry, hrefs, hsame⟩ := h
  exact ⟨hle.named _ _ hname, entry, hle.refs _ _ _ hrefs, hsame⟩

theorem Expressions.mono {e e' : Expr RefId} (h : P.Expressions c e e') (hle : P.Le Q) :
    Q.Expressions c e e' :=
  Expr.Related.mono h hle.token fun href => href.mono hle

mutual

/-- Statements still correspond when more tokens do and more references have the same entry. -/
theorem Statements.mono {c : List Naming} {s s' : Stmt RefId} (h : P.Statements c s s')
    (hle : P.Le Q) : Q.Statements c s s' := by
  cases h with
  | expression h => exact .expression (Expressions.mono h hle)
  | print h => exact .print (Expressions.mono h hle)
  | declared hname => exact .declared hname
  | initialized hname h => exact .initialized hname (Expressions.mono h hle)
  | block N h => exact .block N (h.mono hle)
  | ifThen hcondition hthen => exact .ifThen (Expressions.mono hcondition hle) (hthen.mono hle)
  | ifElse hcondition hthen helse =>
    exact .ifElse (Expressions.mono hcondition hle) (hthen.mono hle) (helse.mono hle)
  | «while» hcondition hbody => exact .while (Expressions.mono hcondition hle) (hbody.mono hle)
  | function N hlexeme hname hparameters hbody =>
    exact .function N hlexeme hname hparameters (hbody.mono hle)
  | finished => exact .finished
  | returned h => exact .returned (Expressions.mono h hle)

theorem StatementsAll.mono {c : List Naming} {ss ss' : List (Stmt RefId)}
    (h : P.StatementsAll c ss ss') (hle : P.Le Q) : Q.StatementsAll c ss ss' := by
  cases h with
  | nil => exact .nil
  | cons hfirst hrest => exact .cons (hfirst.mono hle) (hrest.mono hle)

end

end Mono

section Alike

/-! Trees that are alike do corresponding things wherever all names are the same. -/

variable {P} {c : List Naming}

/-- References with the same entry. -/
def Refs (P : Parallel) (r r' : RefId) : Prop :=
  ∃ entry, P.refs r r' entry

/-- Where all names stay as they are, it is enough that references have the same entry. -/
theorem references_of_plain {ref ref' : RefId} {name name' : Token} (hc : ∀ N ∈ c, N = .plain)
    (hnames : ∀ t t', P.token t t' → P.named t t') (href : P.Refs ref ref')
    (hname : P.token name name') : P.References c ref name ref' name' := by
  obtain ⟨entry, href⟩ := href
  refine ⟨hnames _ _ hname, entry, href, ?_⟩
  rw [Naming.ofEntry_eq_plain hc]
  exact (P.sameText _ _ hname).lexeme

theorem expressions_of_alike {e e' : Expr RefId} (h : e.Alike P.token P.Refs e')
    (hc : ∀ N ∈ c, N = .plain) (hnames : ∀ t t', P.token t t' → P.named t t') :
    P.Expressions c e e' :=
  h.related (references_of_plain hc hnames)

/-- Where all names are the same, both programs declare the same word. -/
theorem innermost_same {name name' : Token} (hc : ∀ N ∈ c, N = .plain)
    (hname : P.token name name') : (Naming.innermost c).Same name.lexeme name'.lexeme := by
  rw [Naming.innermost_eq_plain hc]
  exact (P.sameText _ _ hname).lexeme

mutual

/-- Statements of one shape do the same where no frame renames. -/
theorem statements_of_alike {c : List Naming} {s s' : Stmt RefId} (h : s.Alike P.token P.Refs s')
    (hc : ∀ N ∈ c, N = .plain) (hnames : ∀ t t', P.token t t' → P.named t t') :
    P.Statements c s s' := by
  cases h with
  | expression h => exact .expression (expressions_of_alike h hc hnames)
  | print h => exact .print (expressions_of_alike h hc hnames)
  | declared hname => exact .declared (innermost_same hc hname)
  | initialized hname h =>
    exact .initialized (innermost_same hc hname) (expressions_of_alike h hc hnames)
  | block h =>
    exact .block .plain (statementsAll_of_alike h (List.forall_mem_cons.mpr ⟨rfl, hc⟩) hnames)
  | ifThen hcondition hthen =>
    exact .ifThen (expressions_of_alike hcondition hc hnames) (statements_of_alike hthen hc hnames)
  | ifElse hcondition hthen helse =>
    exact .ifElse (expressions_of_alike hcondition hc hnames) (statements_of_alike hthen hc hnames)
      (statements_of_alike helse hc hnames)
  | «while» hcondition hbody =>
    exact .while (expressions_of_alike hcondition hc hnames) (statements_of_alike hbody hc hnames)
  | function hname hparameters hbody =>
    exact .function .plain (P.sameText _ _ hname).lexeme (innermost_same hc hname)
      (hparameters.imp fun _ _ h => (P.sameText _ _ h).lexeme)
      (statementsAll_of_alike hbody (List.forall_mem_cons.mpr ⟨rfl, hc⟩) hnames)
  | finished => exact .finished
  | returned _ h => exact .returned (expressions_of_alike h hc hnames)

theorem statementsAll_of_alike {c : List Naming} {ss ss' : List (Stmt RefId)}
    (h : Stmt.AlikeAll P.token P.Refs ss ss') (hc : ∀ N ∈ c, N = .plain)
    (hnames : ∀ t t', P.token t t' → P.named t t') : P.StatementsAll c ss ss' := by
  cases h with
  | nil => exact .nil
  | cons hfirst hrest =>
    exact .cons (statements_of_alike hfirst hc hnames) (statementsAll_of_alike hrest hc hnames)

end

end Alike

section Composes

/-! A program that corresponds to another also does to those that are alike the other. What is known
of the tokens at each place of the first and the last is kept. -/

structure Composes (P : Parallel) (Q R : Token → Token → Prop) (P' : Parallel) : Prop where
  sameText : ∀ {t t'}, Q t t' → t.SameText t'
  token : ∀ {t t' t''}, P.token t t' → Q t' t'' → R t t'' → P'.token t t''
  named : ∀ {t t' t''}, P.named t t' → Q t' t'' → R t t'' → P'.named t t''
  refs : ∀ {r r' entry}, P.refs r r' entry → P'.refs r r' entry

variable {P P' : Parallel} {Q R : Token → Token → Prop} {c : List Naming}

/-- Other tokens with the same text lead to the same variable. -/
theorem References.compose {ref ref' : RefId} {name name' name'' : Token}
    (h : P.References c ref name ref' name') (hP : P.Composes Q R P') (hQ : Q name' name'')
    (hR : R name name'') : P'.References c ref name ref' name'' := by
  obtain ⟨hname, entry, hrefs, hsame⟩ := h
  rw [← (hP.sameText hQ).lexeme] at hsame
  exact ⟨hP.named hname hQ hR, entry, hP.refs hrefs, hsame⟩

theorem Expressions.compose {e e' e'' : Expr RefId} (h : P.Expressions c e e')
    (hP : P.Composes Q R P') (hQ : e'.Alike Q (fun ref ref' => ref' = ref) e'')
    (hR : e.Alike R (fun _ _ => True) e'') : P'.Expressions c e e'' :=
  Expr.Related.compose h hQ hR hP.token fun href hsame hnameQ hnameR => by
    obtain rfl := hsame
    exact href.compose hP hnameQ hnameR

/-- A name may be replaced by one of the same text. -/
theorem same_compose {N : Naming} {name name' name'' : Token} (h : N.Same name.lexeme name'.lexeme)
    (hP : P.Composes Q R P') (hQ : Q name' name'') : N.Same name.lexeme name''.lexeme := by
  rwa [(hP.sameText hQ).lexeme]

theorem parameters_compose {N : Naming} {parameters parameters' parameters'' : List Token}
    (h : N.Parameters parameters parameters') (hP : P.Composes Q R P')
    (hQ : List.Forall₂ Q parameters' parameters'') : N.Parameters parameters parameters'' := by
  unfold Naming.Parameters at *
  induction h generalizing parameters'' with
  | nil =>
    cases hQ
    exact .nil
  | cons hfirst _ ih =>
    cases hQ with
    | cons hfirstQ hrestQ => exact .cons (same_compose hfirst hP hfirstQ) (ih hrestQ)

mutual

/-- A statement may be replaced by one that is spelled the same. -/
theorem Statements.compose {c : List Naming} {s s' s'' : Stmt RefId} (h : P.Statements c s s')
    (hP : P.Composes Q R P') (hQ : s'.Alike Q (fun ref ref' => ref' = ref) s'')
    (hR : s.Alike R (fun _ _ => True) s'') : P'.Statements c s s'' := by
  cases h with
  | expression h =>
    cases hQ with
    | expression hQ =>
      cases hR with
      | expression hR => exact .expression (Expressions.compose h hP hQ hR)
  | print h =>
    cases hQ with
    | print hQ =>
      cases hR with
      | print hR => exact .print (Expressions.compose h hP hQ hR)
  | declared hname =>
    cases hQ with
    | declared hnameQ => exact .declared (same_compose hname hP hnameQ)
  | initialized hname h =>
    cases hQ with
    | initialized hnameQ hQ =>
      cases hR with
      | initialized _ hR =>
        exact .initialized (same_compose hname hP hnameQ) (Expressions.compose h hP hQ hR)
  | block N h =>
    cases hQ with
    | block hQ =>
      cases hR with
      | block hR => exact .block N (h.compose hP hQ hR)
  | ifThen hcondition hthen =>
    cases hQ with
    | ifThen hconditionQ hthenQ =>
      cases hR with
      | ifThen hconditionR hthenR =>
        exact .ifThen (Expressions.compose hcondition hP hconditionQ hconditionR)
          (hthen.compose hP hthenQ hthenR)
  | ifElse hcondition hthen helse =>
    cases hQ with
    | ifElse hconditionQ hthenQ helseQ =>
      cases hR with
      | ifElse hconditionR hthenR helseR =>
        exact .ifElse (Expressions.compose hcondition hP hconditionQ hconditionR)
          (hthen.compose hP hthenQ hthenR) (helse.compose hP helseQ helseR)
  | «while» hcondition hbody =>
    cases hQ with
    | «while» hconditionQ hbodyQ =>
      cases hR with
      | «while» hconditionR hbodyR =>
        exact .while (Expressions.compose hcondition hP hconditionQ hconditionR)
          (hbody.compose hP hbodyQ hbodyR)
  | function N hlexeme hname hparameters hbody =>
    cases hQ with
    | function hnameQ hparametersQ hbodyQ =>
      cases hR with
      | function _ _ hbodyR =>
        exact .function N ((hP.sameText hnameQ).lexeme.trans hlexeme)
          (same_compose hname hP hnameQ) (parameters_compose hparameters hP hparametersQ)
          (hbody.compose hP hbodyQ hbodyR)
  | finished =>
    cases hQ
    exact .finished
  | returned h =>
    cases hQ with
    | returned _ hQ =>
      cases hR with
      | returned _ hR => exact .returned (Expressions.compose h hP hQ hR)

theorem StatementsAll.compose {c : List Naming} {ss ss' ss'' : List (Stmt RefId)}
    (h : P.StatementsAll c ss ss') (hP : P.Composes Q R P')
    (hQ : Stmt.AlikeAll Q (fun ref ref' => ref' = ref) ss' ss'')
    (hR : Stmt.AlikeAll R (fun _ _ => True) ss ss'') : P'.StatementsAll c ss ss'' := by
  cases h with
  | nil =>
    cases hQ
    exact .nil
  | cons hfirst hrest =>
    cases hQ with
    | cons hfirstQ hrestQ =>
      cases hR with
      | cons hfirstR hrestR =>
        exact .cons (hfirst.compose hP hfirstQ hfirstR) (hrest.compose hP hrestQ hrestR)

end

end Composes

section Runs

/-- The runs of such programs are compared level by level: every frame is on both chains, and only
    its naming is of interest. -/
def comparison (P : Parallel) : Comparison Naming where
  side? _ := none
  naming := id
  token := P.token
  sameText := P.sameText _ _
  named := P.named
  refs ref ref' entry entry' := P.refs ref ref' entry ∧ entry' = entry
  statements _ := P.Statements
  functions c N f f' :=
    N.Parameters f.parameters f'.parameters ∧ P.StatementsAll (N :: c) f.body f'.body
  shared _ := rfl
  parameters h := h.1
  body h := h.2.forall₂
  before := P.before

variable {P : Parallel} {c : List Naming} {w : Pairing Naming} {n : Nat}

/-- Every frame is on both chains. -/
theorem shared (c : List Naming) : P.comparison.Shared c :=
  fun _ _ => rfl

theorem innermost_comparison (c : List Naming) :
    P.comparison.innermost c = Naming.innermost c := by
  cases c <;> rfl

/-- The same distance leads to the same level on both chains. -/
theorem meets (c : List Naming) (d : Nat) : P.comparison.Meets c d d (c.drop d) := by
  induction d generalizing c with
  | zero => exact .here (shared c)
  | succ d ih =>
    refine .further (shared c) ?_
    rw [← List.drop_tail]
    exact ih c.tail

/-- References with the same entry lead to corresponding variables, at the same distance or among
    the globals. -/
theorem References.refers {ref ref' : RefId} {name name' : Token}
    (h : P.References c ref name ref' name') : P.comparison.Refers c ref name ref' name' := by
  obtain ⟨hname, entry, hrefs, hsame⟩ := h
  refine ⟨hname, entry, entry, ⟨hrefs, rfl⟩, ?_⟩
  cases entry with
  | none =>
    have hlexeme : name'.lexeme = name.lexeme := hsame
    rw [hlexeme]
    exact .globals
  | some d =>
    refine .frame (meets c d) ?_
    rw [innermost_comparison]
    exact hsame

theorem Expressions.compared {e e' : Expr RefId} (h : P.Expressions c e e') :
    P.comparison.Expressions c e e' :=
  Expr.Related.mono h (fun _ _ => id) References.refers

/-- Statements that do corresponding things have one form. -/
theorem Statements.forms {s s' : Stmt RefId} (h : P.Statements c s s') :
    P.comparison.Forms c s s' := by
  have hinnermost {name name' : Token}
      (hname : (Naming.innermost c).Same name.lexeme name'.lexeme) :
      (P.comparison.innermost c).Same name.lexeme name'.lexeme :=
    (innermost_comparison (P := P) c).symm ▸ hname
  cases h with
  | expression he => exact .expression (Expressions.compared he)
  | print he => exact .print (Expressions.compared he)
  | declared hname => exact .declared (shared c) (hinnermost hname)
  | initialized hname he =>
    exact .initialized (shared c) (hinnermost hname) (Expressions.compared he)
  | block N hbody => exact .block N rfl hbody.forall₂
  | ifThen hcondition hthen => exact .ifThen (Expressions.compared hcondition) hthen
  | ifElse hcondition hthen helse =>
    exact .ifElse (Expressions.compared hcondition) hthen helse
  | «while» hcondition hbody => exact .while (Expressions.compared hcondition) hbody
  | function N hlexeme hname hparameters hbody =>
    exact .function N (shared c) hlexeme (hinnermost hname) fun _ _ _ _ => ⟨hparameters, hbody⟩
  | finished => exact .finished
  | returned he => exact .returned (Expressions.compared he)

/-- Corresponding programs do the same, whatever the fuel. -/
theorem runs (P : Parallel) (n : Nat) : P.comparison.Runs none n :=
  P.comparison.runs (fun _ _ _ _ hs => .inl hs.forms) n

/-- Whole programs print the same and end alike. -/
theorem runProgram_steps {ss ss' : List (Stmt RefId)} (h : P.StatementsAll c ss ss') (n : Nat) :
    P.comparison.Steps none w c (fun _ _ _ => True) (runProgram n ss) (runProgram n ss') :=
  (runs P n).runProgram rfl h.forall₂

end Runs

section Le

/-! Machines still correspond when more tokens do and more references have the same entry. -/

variable {P Q : Parallel} {w : Pairing Naming}

/-- Values still correspond when more tokens do. -/
theorem values_le {v v' : Value} (h : P.comparison.Values w v v') (hle : P.Le Q) :
    Q.comparison.Values w v v' := by
  cases h with
  | plain h => exact .plain h
  | function h =>
    obtain ⟨c, N, hw, hparameters, hbody⟩ := h.exists_functions
    exact .function ⟨h.identity, h.lexeme, c, N, hw, hparameters, hbody.mono hle⟩

/-- Stores still correspond when more tokens do. -/
theorem stores_le {g g' : FrameId} {s s' : Store} (h : P.comparison.Stores w g g' s s')
    (hle : P.Le Q) : Q.comparison.Stores w g g' s s' where
  lt_next := h.lt_next
  parent? := h.parent?
  first := h.first
  second := h.second
  eq_iff := h.eq_iff
  innermost_eq := h.innermost_eq
  read? {c f f' n n'} hc hf hname := by
    have hread : Option.Rel (P.comparison.Values w) (s.read? f n) (s'.read? f' n') :=
      h.read? hc hf hname
    generalize s.read? f n = found, s'.read? f' n' = found' at hread ⊢
    cases hread with
    | none => exact .none
    | some hvalue => exact .some (values_le hvalue hle)
  globals := h.globals
  outermost := h.outermost

end Le

end Parallel

end Lox

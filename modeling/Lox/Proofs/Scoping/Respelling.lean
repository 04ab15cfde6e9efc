import Lox.Proofs.Scoping.Place
import Lox.Proofs.Token.Respelling

/-!
New names for the variables of one scope. The declarations of a variable in the scope get the new
name, and so do the references that scoping leads there; nothing else does.
-/

namespace Lox

variable {ρ : Type}

namespace Respelling

variable (r : Respelling)

/-- The name of a reference, where `scopes` lead from the reference out to the scope whose variables
    are respelled, which is the last of them. -/
def reference (scopes : List Scope) (name : Token) : Token :=
  if Scope.distance? scopes name = some (scopes.length - 1) then r.token name else name

/-- The name of a variable that is declared in the innermost of these scopes. -/
def declared (scopes : List Scope) (name : Token) : Token :=
  if scopes.length = 1 then r.token name else name

end Respelling

mutual

def Expr.respell (r : Respelling) (scopes : List Scope) : Expr ρ → Expr ρ
  | .literal value => .literal value
  | .grouping inner => .grouping (inner.respell r scopes)
  | .unary operator operand => .unary operator (operand.respell r scopes)
  | .binary left operator right =>
    .binary (left.respell r scopes) operator (right.respell r scopes)
  | .logical left operator right =>
    .logical (left.respell r scopes) operator (right.respell r scopes)
  | .var ref name => .var ref (r.reference scopes name)
  | .assign ref name value => .assign ref (r.reference scopes name) (value.respell r scopes)
  | .call callee paren arguments =>
    .call (callee.respell r scopes) paren (Expr.respellAll r scopes arguments)

def Expr.respellAll (r : Respelling) (scopes : List Scope) : List (Expr ρ) → List (Expr ρ)
  | [] => []
  | e :: es => e.respell r scopes :: Expr.respellAll r scopes es

end

mutual

/-- Respells a statement inside the scope, and gives the scopes with what it declares, under the old
    names. -/
def Stmt.respell (r : Respelling) (scopes : List Scope) : Stmt ρ → Stmt ρ × List Scope
  | .expression e => (.expression (e.respell r scopes), scopes)
  | .print e => (.print (e.respell r scopes), scopes)
  | .var name none =>
    (.var (r.declared scopes name) none,
      Scope.record name true (Scope.record name false scopes))
  | .var name (some e) =>
    let declared := Scope.record name false scopes
    (.var (r.declared scopes name) (some (e.respell r declared)),
      Scope.record name true declared)
  | .block body => (.block (Stmt.respellAll r ([] :: scopes) body).1, scopes)
  | .if condition thenBranch none =>
    let thenBranch := thenBranch.respell r scopes
    (.if (condition.respell r scopes) thenBranch.1 none, thenBranch.2)
  | .if condition thenBranch (some elseBranch) =>
    let thenBranch := thenBranch.respell r scopes
    let elseBranch := elseBranch.respell r thenBranch.2
    (.if (condition.respell r scopes) thenBranch.1 (some elseBranch.1), elseBranch.2)
  | .while condition body =>
    let body := body.respell r scopes
    (.while (condition.respell r scopes) body.1, body.2)
  | .function name parameters body =>
    let named := Scope.record name true scopes
    (.function name parameters
      (Stmt.respellAll r (Scope.ofParameters parameters :: named) body).1, named)
  | .return keyword none => (.return keyword none, scopes)
  | .return keyword (some e) => (.return keyword (some (e.respell r scopes)), scopes)

def Stmt.respellAll (r : Respelling) (scopes : List Scope) :
    List (Stmt ρ) → List (Stmt ρ) × List Scope
  | [] => ([], scopes)
  | s :: rest =>
    let s := s.respell r scopes
    let rest := Stmt.respellAll r s.2 rest
    (s.1 :: rest.1, rest.2)

end

/-- The statement declares a function of this name in the scope around it. -/
def Stmt.declaresFunction (n : String) : Stmt ρ → Prop
  | .function name _ _ => name.lexeme = n
  | .if _ thenBranch none => thenBranch.declaresFunction n
  | .if _ thenBranch (some elseBranch) =>
    thenBranch.declaresFunction n ∨ elseBranch.declaresFunction n
  | .while _ body => body.declaresFunction n
  | _ => False

mutual

/-- One block or function of the statement has variables with a new name. Functions keep their
    names, so none of the old name may be declared there. -/
inductive Stmt.Respelled (r : Respelling) : Stmt ρ → Stmt ρ → Prop
  | block (hfunctions : ∀ s ∈ body, ¬ s.declaresFunction r.old) :
      Respelled r (.block body) (.block (Stmt.respellAll r [[]] body).1)
  | function (hfunctions : ∀ s ∈ body, ¬ s.declaresFunction r.old) :
      Respelled r (.function name parameters body)
        (.function name (parameters.map r.token)
          (Stmt.respellAll r [Scope.ofParameters parameters] body).1)
  | inBlock (h : Stmt.RespelledAll r body body') : Respelled r (.block body) (.block body')
  | inFunction (h : Stmt.RespelledAll r body body') :
      Respelled r (.function name parameters body) (.function name parameters body')
  | inThen (h : Respelled r s s') : Respelled r (.if e s t) (.if e s' t)
  | inElse (h : Respelled r t t') : Respelled r (.if e s (some t)) (.if e s (some t'))
  | inWhile (h : Respelled r s s') : Respelled r (.while e s) (.while e s')

inductive Stmt.RespelledAll (r : Respelling) : List (Stmt ρ) → List (Stmt ρ) → Prop
  | first (h : Stmt.Respelled r s s') : RespelledAll r (s :: rest) (s' :: rest)
  | rest (h : RespelledAll r rest rest') : RespelledAll r (s :: rest) (s :: rest')

end

section Avoids

/-! Trees in which a name occurs nowhere. -/

def Expr.Avoids (n : String) (e : Expr ρ) : Prop :=
  e.Alike (fun t t' => t' = t ∧ t.lexeme ≠ n) (fun _ _ => True) e

def Expr.AvoidsAll (n : String) (es : List (Expr ρ)) : Prop :=
  Expr.AlikeAll (fun t t' => t' = t ∧ t.lexeme ≠ n) (fun _ _ => True) es es

def Stmt.Avoids (n : String) (s : Stmt ρ) : Prop :=
  s.Alike (fun t t' => t' = t ∧ t.lexeme ≠ n) (fun _ _ => True) s

def Stmt.AvoidsAll (n : String) (ss : List (Stmt ρ)) : Prop :=
  Stmt.AlikeAll (fun t t' => t' = t ∧ t.lexeme ≠ n) (fun _ _ => True) ss ss

end Avoids

section Alike

/-! Respelling keeps the shape of a tree. -/

variable {r : Respelling}

theorem Respelling.respells_self (t : Token) : r.Respells t t :=
  .inl rfl

/-- A reference keeps its word or gets the new one. -/
theorem Respelling.respells_reference (scopes : List Scope) (name : Token) :
    r.Respells name (r.reference scopes name) := by
  unfold reference
  split
  · exact .inr rfl
  · exact .inl rfl

/-- A declaration is respelled or stays as it is. -/
theorem Respelling.respells_declared (scopes : List Scope) (name : Token) :
    r.Respells name (r.declared scopes name) := by
  unfold declared
  split
  · exact .inr rfl
  · exact .inl rfl

mutual

/-- A respelled expression has the same shape, and other words at most. -/
theorem Expr.alike_respell (scopes : List Scope) (e : Expr ρ) :
    e.Alike r.Respells (fun _ _ => True) (e.respell r scopes) := by
  cases e with
  | literal => exact .literal
  | grouping inner => exact .grouping (Expr.alike_respell scopes inner)
  | unary operator operand => exact .unary (.inl rfl) (Expr.alike_respell scopes operand)
  | binary left operator right =>
    exact .binary (Expr.alike_respell scopes left) (.inl rfl) (Expr.alike_respell scopes right)
  | logical left operator right =>
    exact .logical (Expr.alike_respell scopes left) (.inl rfl) (Expr.alike_respell scopes right)
  | var ref name => exact .var trivial (Respelling.respells_reference scopes name)
  | assign ref name value =>
    exact .assign trivial (Respelling.respells_reference scopes name)
      (Expr.alike_respell scopes value)
  | call callee paren arguments =>
    exact .call (Expr.alike_respell scopes callee) (.inl rfl)
      (Expr.alikeAll_respellAll scopes arguments)

theorem Expr.alikeAll_respellAll (scopes : List Scope) (es : List (Expr ρ)) :
    Expr.AlikeAll r.Respells (fun _ _ => True) es (Expr.respellAll r scopes es) := by
  cases es with
  | nil => exact .nil
  | cons e es => exact .cons (Expr.alike_respell scopes e) (Expr.alikeAll_respellAll scopes es)

end

mutual

/-- A respelled statement has the same shape, and other words at most. -/
theorem Stmt.alike_respell (scopes : List Scope) (s : Stmt ρ) :
    s.Alike r.Respells (fun _ _ => True) (s.respell r scopes).1 := by
  cases s with
  | expression e => exact .expression (e.alike_respell scopes)
  | print e => exact .print (e.alike_respell scopes)
  | var name initializer =>
    cases initializer with
    | none => exact .declared (Respelling.respells_declared scopes name)
    | some e => exact .initialized (Respelling.respells_declared scopes name) (e.alike_respell _)
  | block body => exact .block (Stmt.alikeAll_respellAll _ body)
  | «if» condition thenBranch elseBranch =>
    cases elseBranch with
    | none =>
      exact .ifThen (condition.alike_respell scopes) (Stmt.alike_respell scopes thenBranch)
    | some elseBranch =>
      exact .ifElse (condition.alike_respell scopes) (Stmt.alike_respell scopes thenBranch)
        (Stmt.alike_respell _ elseBranch)
  | «while» condition body =>
    exact .while (condition.alike_respell scopes) (Stmt.alike_respell scopes body)
  | function name parameters body =>
    exact .function (.inl rfl) (List.forall₂_same.mpr fun _ _ => .inl rfl)
      (Stmt.alikeAll_respellAll _ body)
  | «return» keyword value =>
    cases value with
    | none => exact .finished (.inl rfl)
    | some e => exact .returned (.inl rfl) (e.alike_respell scopes)

theorem Stmt.alikeAll_respellAll (scopes : List Scope) (ss : List (Stmt ρ)) :
    Stmt.AlikeAll r.Respells (fun _ _ => True) ss (Stmt.respellAll r scopes ss).1 := by
  cases ss with
  | nil => exact .nil
  | cons s rest => exact .cons (Stmt.alike_respell scopes s) (Stmt.alikeAll_respellAll _ rest)

end

/-- Nothing has to be respelled. -/
theorem Expr.respells_self (e : Expr ρ) : e.Alike r.Respells (fun _ _ => True) e :=
  e.alike_self Respelling.respells_self fun _ _ => trivial

theorem Stmt.respells_self (s : Stmt ρ) : s.Alike r.Respells (fun _ _ => True) s :=
  s.alike_self Respelling.respells_self fun _ _ => trivial

theorem Stmt.respellsAll_self (ss : List (Stmt ρ)) :
    Stmt.AlikeAll r.Respells (fun _ _ => True) ss ss :=
  Stmt.alikeAll_self Respelling.respells_self ss fun _ _ => trivial

mutual

/-- With the names of one scope respelled, a statement has the same shape. -/
theorem Stmt.Respelled.alike {s s' : Stmt ρ} (h : s.Respelled r s') :
    s.Alike r.Respells (fun _ _ => True) s' := by
  cases h with
  | @block body => exact .block (Stmt.alikeAll_respellAll _ body)
  | @function body =>
    refine .function (.inl rfl) ?_ (Stmt.alikeAll_respellAll _ body)
    rw [List.forall₂_map_right_iff, List.forall₂_same]
    exact fun _ _ => .inr rfl
  | inBlock h => exact .block h.alike
  | inFunction h =>
    exact .function (.inl rfl) (List.forall₂_same.mpr fun _ _ => .inl rfl) h.alike
  | @inThen s _ e t h =>
    cases t with
    | none => exact .ifThen e.respells_self h.alike
    | some t => exact .ifElse e.respells_self h.alike t.respells_self
  | @inElse _ _ e s h => exact .ifElse e.respells_self s.respells_self h.alike
  | @inWhile _ _ e h => exact .while e.respells_self h.alike

theorem Stmt.RespelledAll.alike {ss ss' : List (Stmt ρ)} (h : Stmt.RespelledAll r ss ss') :
    Stmt.AlikeAll r.Respells (fun _ _ => True) ss ss' := by
  cases h with
  | @first _ _ rest h => exact .cons h.alike (Stmt.respellsAll_self rest)
  | @rest _ _ s h => exact .cons s.respells_self h.alike

end

end Alike

section Number

/-! Respelling goes along with numbering. -/

mutual

/-- An expression may be numbered or respelled first. -/
theorem Expr.number_respell (r : Respelling) (scopes : List Scope) (n : RefId) (e : Expr ρ) :
    (e.respell r scopes).number n = ((e.number n).1.respell r scopes, (e.number n).2) := by
  cases e with
  | literal | var => rfl
  | grouping inner =>
    simp only [Expr.respell, Expr.number, Expr.number_respell r scopes n inner]
  | unary operator operand =>
    simp only [Expr.respell, Expr.number, Expr.number_respell r scopes n operand]
  | binary left operator right | logical left operator right =>
    simp only [Expr.respell, Expr.number, Expr.number_respell r scopes n left,
      Expr.number_respell r scopes _ right]
  | assign ref name value =>
    simp only [Expr.respell, Expr.number, Expr.number_respell r scopes n value]
  | call callee paren arguments =>
    simp only [Expr.respell, Expr.number, Expr.number_respell r scopes n callee,
      Expr.numberAll_respellAll r scopes _ arguments]

theorem Expr.numberAll_respellAll (r : Respelling) (scopes : List Scope) (n : RefId)
    (es : List (Expr ρ)) : Expr.numberAll n (Expr.respellAll r scopes es) =
      (Expr.respellAll r scopes (Expr.numberAll n es).1, (Expr.numberAll n es).2) := by
  cases es with
  | nil => rfl
  | cons e es =>
    simp only [Expr.respellAll, Expr.numberAll, Expr.number_respell r scopes n e,
      Expr.numberAll_respellAll r scopes _ es]

end

mutual

/-- A statement may be numbered or respelled first, and the scopes that it leaves are the same. -/
theorem Stmt.number_respell (r : Respelling) (scopes : List Scope) (n : RefId) (s : Stmt ρ) :
    (s.respell r scopes).1.number n = (((s.number n).1.respell r scopes).1, (s.number n).2) ∧
      ((s.number n).1.respell r scopes).2 = (s.respell r scopes).2 := by
  cases s with
  | expression e | print e =>
    simp only [Stmt.respell, Stmt.number, Expr.number_respell, and_self]
  | var name initializer =>
    cases initializer with
    | none => exact ⟨rfl, rfl⟩
    | some e => simp only [Stmt.respell, Stmt.number, Expr.number_respell, and_self]
  | block body =>
    have hbody := Stmt.numberAll_respellAll r ([] :: scopes) n body
    simp only [Stmt.respell, Stmt.number, hbody.1, and_self]
  | «if» condition thenBranch elseBranch =>
    cases elseBranch with
    | none =>
      obtain ⟨hthen, hscopes⟩ := Stmt.number_respell r scopes (condition.number n).2 thenBranch
      simp only [Stmt.respell, Stmt.number, Expr.number_respell, hthen, hscopes, and_self]
    | some elseBranch =>
      obtain ⟨hthen, hscopes⟩ := Stmt.number_respell r scopes (condition.number n).2 thenBranch
      obtain ⟨helse, hscopes'⟩ := Stmt.number_respell r (thenBranch.respell r scopes).2
        (thenBranch.number (condition.number n).2).2 elseBranch
      simp only [Stmt.respell, Stmt.number, Expr.number_respell, hthen, hscopes, helse, hscopes',
        and_self]
  | «while» condition body =>
    obtain ⟨hbody, hscopes⟩ := Stmt.number_respell r scopes (condition.number n).2 body
    simp only [Stmt.respell, Stmt.number, Expr.number_respell, hbody, hscopes, and_self]
  | function name parameters body =>
    have hbody := Stmt.numberAll_respellAll r
      (Scope.ofParameters parameters :: Scope.record name true scopes) n body
    simp only [Stmt.respell, Stmt.number, hbody.1, and_self]
  | «return» keyword value =>
    cases value with
    | none => exact ⟨rfl, rfl⟩
    | some e => simp only [Stmt.respell, Stmt.number, Expr.number_respell, and_self]

theorem Stmt.numberAll_respellAll (r : Respelling) (scopes : List Scope) (n : RefId)
    (ss : List (Stmt ρ)) : Stmt.numberAll n (Stmt.respellAll r scopes ss).1 =
        ((Stmt.respellAll r scopes (Stmt.numberAll n ss).1).1, (Stmt.numberAll n ss).2) ∧
      (Stmt.respellAll r scopes (Stmt.numberAll n ss).1).2 = (Stmt.respellAll r scopes ss).2 := by
  cases ss with
  | nil => exact ⟨rfl, rfl⟩
  | cons s rest =>
    obtain ⟨hfirst, hscopes⟩ := Stmt.number_respell r scopes n s
    obtain ⟨hrest, hscopes'⟩ := Stmt.numberAll_respellAll r (s.respell r scopes).2
      (s.number n).2 rest
    simp only [Stmt.respellAll, Stmt.numberAll, hfirst, hscopes, hrest, hscopes', and_self]

end

/-- Numbering leaves declarations alone. -/
theorem Stmt.declaresFunction_number (x : String) (n : RefId) (s : Stmt ρ) :
    (s.number n).1.declaresFunction x ↔ s.declaresFunction x := by
  cases s with
  | expression | print | block | function => rfl
  | var name initializer => cases initializer <;> rfl
  | «if» condition thenBranch elseBranch =>
    cases elseBranch with
    | none => exact Stmt.declaresFunction_number x _ thenBranch
    | some elseBranch =>
      exact or_congr (Stmt.declaresFunction_number x _ thenBranch)
        (Stmt.declaresFunction_number x _ elseBranch)
  | «while» condition body => exact Stmt.declaresFunction_number x _ body
  | «return» keyword value => cases value <;> rfl

theorem Stmt.forall_not_declaresFunction_number {x : String} {ss : List (Stmt ρ)}
    (h : ∀ s ∈ ss, ¬ s.declaresFunction x) (n : RefId) :
    ∀ s ∈ (Stmt.numberAll n ss).1, ¬ s.declaresFunction x := by
  induction ss generalizing n with
  | nil => simp [Stmt.numberAll]
  | cons s rest ih =>
    rw [List.forall_mem_cons] at h
    refine List.forall_mem_cons.mpr ⟨?_, ih h.2 _⟩
    rw [Stmt.declaresFunction_number]
    exact h.1

mutual

/-- The same scope is respelled in the numbered program. -/
theorem Stmt.Respelled.number {r : Respelling} {s s' : Stmt ρ} (h : s.Respelled r s') (n : RefId) :
    (s.number n).1.Respelled r (s'.number n).1 ∧ (s'.number n).2 = (s.number n).2 := by
  cases h with
  | @block body hfunctions =>
    simp only [Stmt.number, (Stmt.numberAll_respellAll r [[]] n body).1, and_true]
    exact .block (Stmt.forall_not_declaresFunction_number hfunctions n)
  | @function body name parameters hfunctions =>
    simp only [Stmt.number,
      (Stmt.numberAll_respellAll r [Scope.ofParameters parameters] n body).1, and_true]
    exact .function (Stmt.forall_not_declaresFunction_number hfunctions n)
  | inBlock h =>
    obtain ⟨h, hnext⟩ := h.number n
    exact ⟨.inBlock h, hnext⟩
  | inFunction h =>
    obtain ⟨h, hnext⟩ := h.number n
    exact ⟨.inFunction h, hnext⟩
  | @inThen s s' e t h =>
    obtain ⟨h, hnext⟩ := h.number (e.number n).2
    cases t with
    | none => exact ⟨.inThen h, hnext⟩
    | some t =>
      simp only [Stmt.number, hnext, and_true]
      exact .inThen h
  | inElse h =>
    obtain ⟨h, hnext⟩ := h.number _
    exact ⟨.inElse h, hnext⟩
  | inWhile h =>
    obtain ⟨h, hnext⟩ := h.number _
    exact ⟨.inWhile h, hnext⟩

theorem Stmt.RespelledAll.number {r : Respelling} {ss ss' : List (Stmt ρ)}
    (h : Stmt.RespelledAll r ss ss') (n : RefId) :
    Stmt.RespelledAll r (Stmt.numberAll n ss).1 (Stmt.numberAll n ss').1 ∧
      (Stmt.numberAll n ss').2 = (Stmt.numberAll n ss).2 := by
  cases h with
  | first h =>
    obtain ⟨h, hnext⟩ := h.number n
    simp only [Stmt.numberAll, hnext, and_true]
    exact .first h
  | rest h =>
    obtain ⟨h, hnext⟩ := h.number _
    exact ⟨.rest h, hnext⟩

end

theorem Stmt.AvoidsAll.number {x : String} {ss : List (Stmt ρ)} (h : Stmt.AvoidsAll x ss)
    (n : RefId) : Stmt.AvoidsAll x (Stmt.numberAll n ss).1 :=
  (Stmt.AlikeAll.number h (fun _ _ => trivial) (Nat.le_refl _)).1

end Number

end Lox

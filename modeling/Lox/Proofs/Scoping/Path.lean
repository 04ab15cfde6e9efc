import Mathlib.Data.List.Infix
import Mathlib.Data.Set.Card
import Mathlib.Order.Lex
import Mathlib.Tactic
import Lox.Proofs.Scoping.Place

/-!
Paths in a program. A node is found by going down from the whole program, at each step to one of the
parts of a node, so paths are ordered as their nodes stand in the source. Scopes and declarations
are said here by paths alone: which blocks and functions lie around a node, and what is declared in
them before it.
-/

namespace Lox

/-- A node of a syntax tree, or a whole program. -/
inductive Node
  | program (statements : List (Stmt RefId))
  | statement (s : Stmt RefId)
  | expression (e : Expr RefId)

/-- The way from a node to one below it: the number of a part, the number of a part of this, and so
    on. A node comes before all that is below it, and its parts come one after the other. -/
abbrev Path := List Nat

namespace Node

/-- The parts of a node, in order. -/
def parts : Node → List Node
  | program statements => statements.map statement
  | statement (.expression e) => [expression e]
  | statement (.print e) => [expression e]
  | statement (.var _ none) => []
  | statement (.var _ (some e)) => [expression e]
  | statement (.block body) => body.map statement
  | statement (.if condition thenBranch none) => [expression condition, statement thenBranch]
  | statement (.if condition thenBranch (some elseBranch)) =>
    [expression condition, statement thenBranch, statement elseBranch]
  | statement (.while condition body) => [expression condition, statement body]
  | statement (.function _ _ body) => body.map statement
  | statement (.return _ none) => []
  | statement (.return _ (some e)) => [expression e]
  | expression (.literal _) => []
  | expression (.grouping inner) => [expression inner]
  | expression (.unary _ operand) => [expression operand]
  | expression (.binary left _ right) => [expression left, expression right]
  | expression (.logical left _ right) => [expression left, expression right]
  | expression (.var _ _) => []
  | expression (.assign _ _ value) => [expression value]
  | expression (.call callee _ arguments) => expression callee :: arguments.map expression

/-- The node at a path below this one. -/
def at? (n : Node) : Path → Option Node
  | [] => some n
  | i :: rest => n.parts[i]?.bind (·.at? rest)

/-- Blocks and functions open a scope. -/
def opens : Node → Bool
  | statement (.block _) | statement (.function _ _ _) => true
  | _ => false

def isFunction : Node → Bool
  | statement (.function _ _ _) => true
  | _ => false

/-- The name that a declaration declares in the scope around it. -/
def declared? : Node → Option Token
  | statement (.var name _) | statement (.function name _ _) => some name
  | _ => none

/-- The names that are declared at the start of a scope. -/
def parameters : Node → List Token
  | statement (.function _ parameters _) => parameters
  | _ => []

/-- A variable that is read, or one that is assigned to. -/
def reference? : Node → Option (RefId × Token)
  | expression (.var ref name) | expression (.assign ref name _) => some (ref, name)
  | _ => none

/-- A block or a function stands at `q`, and `p` lies in it. -/
def Encloses (n : Node) (q p : Path) : Prop :=
  q <+: p ∧ q ≠ p ∧ ∃ c, n.at? q = some c ∧ c.opens = true

/-- No block and no function within the one at `q` lies around `p`. -/
def Innermost (n : Node) (q p : Path) : Prop :=
  n.Encloses q p ∧ ∀ q', n.Encloses q' p → q' <+: q

/-- A declaration of the name stands at `p`. -/
def Declares (n : Node) (name : String) (p : Path) : Prop :=
  ∃ c t, n.at? p = some c ∧ c.declared? = some t ∧ t.lexeme = name

/-- The scope at `q` declares the name before `p`: as a parameter, or by a declaration that stands
    directly in it. The initializer of a variable and the body of a function are below their
    declaration, and so behind it. -/
def DeclaredBefore (n : Node) (q : Path) (name : String) (p : Path) : Prop :=
  (∃ c, n.at? q = some c ∧ ∃ t ∈ c.parameters, t.lexeme = name) ∨
    ∃ r < p, n.Declares name r ∧ n.Innermost q r

/-- Some scope around `p` declares the name before it, and so many scopes lie between `p` and the
    innermost that does. -/
def Resolves (n : Node) (p : Path) (name : String) (distance : Nat) : Prop :=
  ∃ q, n.Encloses q p ∧ n.DeclaredBefore q name p ∧
    (∀ q', n.Encloses q' p → n.DeclaredBefore q' name p → q' <+: q) ∧
    distance = {r | n.Encloses r p ∧ q <+: r ∧ q ≠ r}.ncard

/-- A declaration of the name stands at `p`, and in no scope that the node opens: it declares the
    name where the node itself stands. -/
def Free (n : Node) (name : String) (p : Path) : Prop :=
  n.Declares name p ∧ ∀ q, ¬ n.Encloses q p

/-- The node declares the name where it stands. -/
def FreeIn (n : Node) (name : String) : Prop :=
  ∃ p, n.Free name p

/-- The node declares the name where it stands, and before `p`. -/
def FreeBefore (n : Node) (name : String) (p : Path) : Prop :=
  ∃ r < p, n.Free name r

end Node

/-- The paths before a path are those to a node around it, those through an earlier part, and those
    through the same part. -/
theorem Path.exists_lt_cons {P : Path → Prop} {i : Nat} {p : Path} :
    (∃ r < i :: p, P r) ↔ P [] ∨ (∃ j < i, ∃ r, P (j :: r)) ∨ ∃ r < p, P (i :: r) := by
  constructor
  · rintro ⟨r, hlt, hr⟩
    cases r with
    | nil => exact .inl hr
    | cons j r =>
      rcases List.cons_lt_cons_iff.mp hlt with hhead | ⟨rfl, htail⟩
      · exact .inr (.inl ⟨j, hhead, r, hr⟩)
      · exact .inr (.inr ⟨r, htail, hr⟩)
  · rintro (hr | ⟨j, hlt, r, hr⟩ | ⟨r, hlt, hr⟩)
    · exact ⟨[], List.nil_lt_cons i p, hr⟩
    · exact ⟨j :: r, List.cons_lt_cons_iff.mpr (.inl hlt), hr⟩
    · exact ⟨i :: r, List.cons_lt_cons_iff.mpr (.inr ⟨rfl, hlt⟩), hr⟩

namespace Node

variable {n c c' : Node} {p q r : Path} {i j : Nat} {name : String}

@[simp]
theorem at?_nil : n.at? [] = some n := rfl

/-- A path leads through a part of the node. -/
theorem at?_cons : n.at? (i :: p) = n.parts[i]?.bind (·.at? p) := rfl

theorem at?_of_part (hc : n.parts[i]? = some c) : n.at? (i :: p) = c.at? p := by
  rw [at?_cons, hc, Option.bind_some]

theorem exists_part (h : n.at? (i :: p) = some c') :
    ∃ c, n.parts[i]? = some c ∧ c.at? p = some c' :=
  Option.bind_eq_some_iff.mp h

/-- What is below a node is smaller. -/
theorem sizeOf_lt_of_mem_parts (hc : c ∈ n.parts) : sizeOf c < sizeOf n := by
  have hstatements {ss : List (Stmt RefId)} (h : c ∈ ss.map statement) :
      sizeOf c ≤ sizeOf ss := by
    obtain ⟨s, hs, rfl⟩ := List.mem_map.mp h
    have hlt := List.sizeOf_lt_of_mem hs
    rw [statement.sizeOf_spec]
    omega
  have hexpressions {es : List (Expr RefId)} (h : c ∈ es.map expression) :
      sizeOf c ≤ sizeOf es := by
    obtain ⟨e, he, rfl⟩ := List.mem_map.mp h
    have hlt := List.sizeOf_lt_of_mem he
    rw [expression.sizeOf_spec]
    omega
  cases n with
  | program ss =>
    have hle := hstatements hc
    rw [program.sizeOf_spec]
    omega
  | statement s =>
    cases s with
    | expression | print | «while» =>
      grind [parts, statement.sizeOf_spec, expression.sizeOf_spec]
    | var name initializer | «return» name initializer =>
      cases initializer <;> grind [parts, expression.sizeOf_spec]
    | block body | function name parameters body =>
      have hle := hstatements hc
      simp only [statement.sizeOf_spec, Stmt.block.sizeOf_spec, Stmt.function.sizeOf_spec]
      omega
    | «if» condition thenBranch elseBranch =>
      cases elseBranch <;> grind [parts, statement.sizeOf_spec, expression.sizeOf_spec]
  | expression e =>
    cases e with
    | call callee paren arguments =>
      rw [expression.sizeOf_spec, Expr.call.sizeOf_spec]
      rcases List.mem_cons.mp hc with rfl | hc
      · rw [expression.sizeOf_spec]
        omega
      · have hle := hexpressions hc
        omega
    | _ => grind [parts, expression.sizeOf_spec]

/-- Below an expression stand only expressions. -/
theorem exists_expression_of_mem_parts {e : Expr RefId} (hc : c ∈ (expression e).parts) :
    ∃ e', c = expression e' := by
  cases e with
  | literal | var => cases hc
  | grouping inner | unary operator inner | assign ref name inner =>
    exact ⟨inner, List.mem_singleton.mp hc⟩
  | binary left operator right | logical left operator right =>
    rcases List.mem_pair.mp hc with rfl | rfl
    · exact ⟨left, rfl⟩
    · exact ⟨right, rfl⟩
  | call callee paren arguments =>
    rcases List.mem_cons.mp hc with rfl | hc
    · exact ⟨callee, rfl⟩
    · obtain ⟨e, -, rfl⟩ := List.mem_map.mp hc
      exact ⟨e, rfl⟩

/-- Below an expression there are only expressions. -/
theorem exists_expression_of_at? {e : Expr RefId} (hat : (expression e).at? p = some c) :
    ∃ e', c = expression e' := by
  induction p generalizing e with
  | nil => exact ⟨e, (Option.some.inj hat).symm⟩
  | cons i p ih =>
    obtain ⟨c', hc', hat⟩ := exists_part hat
    obtain ⟨e', rfl⟩ := exists_expression_of_mem_parts (List.mem_of_getElem? hc')
    exact ih hat

/-- A whole program stands below nothing. -/
theorem ne_program_of_mem_parts {ss : List (Stmt RefId)} (hc : c ∈ n.parts) : c ≠ program ss := by
  rintro rfl
  cases n with
  | program => simp [parts] at hc
  | expression e =>
    obtain ⟨e', heq⟩ := exists_expression_of_mem_parts hc
    cases heq
  | statement s =>
    cases s with
    | var t e | «return» t e | «if» condition thenBranch e => cases e <;> simp [parts] at hc
    | _ => simp [parts] at hc

theorem not_encloses_nil : ¬ n.Encloses q [] := by
  rintro ⟨hpre, hne, -⟩
  exact hne (List.prefix_nil.mp hpre)

/-- The root lies around every other node, if it opens a scope. -/
theorem encloses_nil_iff : n.Encloses [] p ↔ p ≠ [] ∧ n.opens = true := by
  constructor
  · rintro ⟨-, hne, _, hat, hopens⟩
    cases hat
    exact ⟨hne.symm, hopens⟩
  · rintro ⟨hne, hopens⟩
    exact ⟨List.nil_prefix, hne.symm, n, rfl, hopens⟩

/-- Below a part, it is a matter of that part. -/
theorem encloses_cons_cons (hc : n.parts[i]? = some c) :
    n.Encloses (i :: q) (i :: p) ↔ c.Encloses q p := by
  rw [Encloses, Encloses, at?_of_part hc, List.cons_prefix_cons, ne_eq, List.cons.injEq]
  simp only [true_and, ne_eq]

/-- What lies around a node is the root or lies below the same part of it. -/
theorem Encloses.cons (h : n.Encloses q (i :: p)) :
    (q = [] ∧ n.opens = true) ∨ ∃ q', q = i :: q' := by
  cases q with
  | nil => exact .inl ⟨rfl, (encloses_nil_iff.mp h).2⟩
  | cons j q => exact .inr ⟨q, by rw [(List.cons_prefix_cons.mp h.1).1]⟩

/-- There is a scope around a node if the root opens one or a part of it does. -/
theorem exists_encloses_cons (hc : n.parts[i]? = some c) :
    (∃ q, n.Encloses q (i :: p)) ↔ n.opens = true ∨ ∃ q, c.Encloses q p := by
  constructor
  · rintro ⟨q, hq⟩
    rcases hq.cons with ⟨-, hopens⟩ | ⟨q, rfl⟩
    · exact .inl hopens
    · exact .inr ⟨q, (encloses_cons_cons hc).mp hq⟩
  · rintro (hopens | ⟨q, hq⟩)
    · exact ⟨[], encloses_nil_iff.mpr ⟨List.cons_ne_nil i p, hopens⟩⟩
    · exact ⟨i :: q, (encloses_cons_cons hc).mpr hq⟩

theorem declares_nil : n.Declares name [] ↔ ∃ t, n.declared? = some t ∧ t.lexeme = name := by
  simp [Declares]

/-- What is declared below a part is declared by that part. -/
theorem declares_cons :
    n.Declares name (i :: p) ↔ ∃ c, n.parts[i]? = some c ∧ c.Declares name p := by
  constructor
  · rintro ⟨c', t, hat, hdeclared⟩
    obtain ⟨c, hc, hat⟩ := exists_part hat
    exact ⟨c, hc, c', t, hat, hdeclared⟩
  · rintro ⟨c, hc, c', t, hat, hdeclared⟩
    exact ⟨c', t, (at?_of_part hc).trans hat, hdeclared⟩

/-- What is innermost below a part is so in that part. -/
theorem innermost_cons_cons (hc : n.parts[i]? = some c) :
    n.Innermost (i :: q) (i :: p) ↔ c.Innermost q p := by
  refine and_congr (encloses_cons_cons hc) ⟨fun h q' hq' => ?_, fun h q' hq' => ?_⟩
  · exact (List.cons_prefix_cons.mp (h (i :: q') ((encloses_cons_cons hc).mpr hq'))).2
  · rcases hq'.cons with ⟨rfl, -⟩ | ⟨q', rfl⟩
    · exact List.nil_prefix
    · exact List.cons_prefix_cons.mpr ⟨rfl, h q' ((encloses_cons_cons hc).mp hq')⟩

/-- A declaration in a part stands directly in the scope of the node if no scope of the part lies
    between. -/
theorem innermost_nil_cons (hc : n.parts[i]? = some c) :
    n.Innermost [] (i :: p) ↔ n.opens = true ∧ ∀ q, ¬ c.Encloses q p := by
  refine and_congr (by simp [encloses_nil_iff]) ⟨fun h q hq => ?_, fun h q hq => ?_⟩
  · exact List.cons_ne_nil i q (List.prefix_nil.mp (h (i :: q) ((encloses_cons_cons hc).mpr hq)))
  · rcases hq.cons with ⟨rfl, -⟩ | ⟨q, rfl⟩
    · exact List.nil_prefix
    · exact absurd ((encloses_cons_cons hc).mp hq) (h q)

theorem free_nil : n.Free name [] ↔ n.Declares name [] :=
  and_iff_left fun _ => not_encloses_nil

/-- A declaration counts outside a node if no scope is opened on the way. -/
theorem free_cons :
    n.Free name (i :: p) ↔ n.opens = false ∧ ∃ c, n.parts[i]? = some c ∧ c.Free name p := by
  constructor
  · rintro ⟨hdeclares, hfree⟩
    obtain ⟨c, hc, hdeclares⟩ := declares_cons.mp hdeclares
    refine ⟨Bool.eq_false_iff.mpr fun hopens => ?_, c, hc, hdeclares, fun q hq => ?_⟩
    · exact hfree [] (encloses_nil_iff.mpr ⟨List.cons_ne_nil i p, hopens⟩)
    · exact hfree (i :: q) ((encloses_cons_cons hc).mpr hq)
  · rintro ⟨hopens, c, hc, hdeclares, hfree⟩
    refine ⟨declares_cons.mpr ⟨c, hc, hdeclares⟩, fun q hq => ?_⟩
    rcases hq.cons with ⟨-, htrue⟩ | ⟨q, rfl⟩
    · exact absurd htrue (Bool.eq_false_iff.mp hopens)
    · exact hfree q ((encloses_cons_cons hc).mp hq)

/-- The names that are declared directly in the scope of a node are those that its parts declare
    where they stand. -/
theorem declares_innermost_nil_cons :
    (n.Declares name (i :: p) ∧ n.Innermost [] (i :: p)) ↔
      n.opens = true ∧ ∃ c, n.parts[i]? = some c ∧ c.Free name p := by
  constructor
  · rintro ⟨hdeclares, hinnermost⟩
    obtain ⟨c, hc, hdeclares⟩ := declares_cons.mp hdeclares
    obtain ⟨hopens, hfree⟩ := (innermost_nil_cons hc).mp hinnermost
    exact ⟨hopens, c, hc, hdeclares, hfree⟩
  · rintro ⟨hopens, c, hc, hdeclares, hfree⟩
    exact ⟨declares_cons.mpr ⟨c, hc, hdeclares⟩, (innermost_nil_cons hc).mpr ⟨hopens, hfree⟩⟩

/-- A name is free in a node that declares it, or in which a part does and no scope is opened. -/
theorem freeIn_iff :
    n.FreeIn name ↔
      n.Declares name [] ∨ (n.opens = false ∧ ∃ c ∈ n.parts, c.FreeIn name) := by
  constructor
  · rintro ⟨r, hr⟩
    cases r with
    | nil => exact .inl (free_nil.mp hr)
    | cons i r =>
      obtain ⟨hopens, c, hc, hr⟩ := free_cons.mp hr
      exact .inr ⟨hopens, c, List.mem_of_getElem? hc, r, hr⟩
  · rintro (h | ⟨hopens, c, hc, r, hr⟩)
    · exact ⟨[], free_nil.mpr h⟩
    · obtain ⟨i, hc⟩ := List.mem_iff_getElem?.mp hc
      exact ⟨i :: r, free_cons.mpr ⟨hopens, c, hc, hr⟩⟩

/-- The parts of a node declare the name where they stand, and before the path. -/
def PartsFreeBefore (n : Node) (name : String) (i : Nat) (p : Path) : Prop :=
  (∃ c ∈ n.parts.take i, c.FreeIn name) ∨ ∃ c, n.parts[i]? = some c ∧ c.FreeBefore name p

/-- An earlier part declares the name, or the same part does before. -/
theorem partsFreeBefore_iff :
    n.PartsFreeBefore name i p ↔
      (∃ j < i, ∃ r c, n.parts[j]? = some c ∧ c.Free name r) ∨
        ∃ r < p, ∃ c, n.parts[i]? = some c ∧ c.Free name r := by
  refine or_congr ?_ ⟨?_, ?_⟩
  · constructor
    · rintro ⟨c, hc, r, hr⟩
      obtain ⟨j, hj⟩ := List.mem_iff_getElem?.mp hc
      rw [List.getElem?_take] at hj
      split at hj
      · exact ⟨j, ‹_›, r, c, hj, hr⟩
      · cases hj
    · rintro ⟨j, hlt, r, c, hc, hr⟩
      exact ⟨c, List.mem_of_getElem? ((List.getElem?_take_of_lt hlt).trans hc), r, hr⟩
  · rintro ⟨c, hc, r, hlt, hr⟩
    exact ⟨r, hlt, c, hc, hr⟩
  · rintro ⟨r, hlt, c, hc, hr⟩
    exact ⟨c, hc, r, hlt, hr⟩

/-- What was declared before is what the root declares and what its parts do. -/
theorem freeBefore_cons :
    n.FreeBefore name (i :: p) ↔
      n.Declares name [] ∨ (n.opens = false ∧ n.PartsFreeBefore name i p) := by
  rw [FreeBefore, Path.exists_lt_cons, partsFreeBefore_iff, free_nil]
  simp only [free_cons, exists_and_left, and_left_comm (b := n.opens = false), ← and_or_left]

/-- In the scope that the root opens the parameters are declared, and what its parts have declared
    before. -/
theorem declaredBefore_nil :
    n.DeclaredBefore [] name (i :: p) ↔
      (∃ t ∈ n.parameters, t.lexeme = name) ∨ (n.opens = true ∧ n.PartsFreeBefore name i p) := by
  rw [DeclaredBefore, Path.exists_lt_cons, partsFreeBefore_iff]
  refine or_congr (by simp) ?_
  simp only [declares_innermost_nil_cons, exists_and_left, and_left_comm (b := n.opens = true),
    ← and_or_left]
  exact or_iff_right fun h => not_encloses_nil h.2.1

/-- Below a part, it is a matter of that part. -/
theorem declaredBefore_cons (hc : n.parts[i]? = some c) :
    n.DeclaredBefore (i :: q) name (i :: p) ↔ c.DeclaredBefore q name p := by
  rw [DeclaredBefore, DeclaredBefore, at?_of_part hc, Path.exists_lt_cons]
  refine or_congr_right ⟨?_, ?_⟩
  · rintro (⟨-, hinner⟩ | ⟨j, hlt, r, -, hinner⟩ | ⟨r, hlt, hdeclares, hinner⟩)
    · exact absurd hinner.1 not_encloses_nil
    · have hij : i = j := (List.cons_prefix_cons.mp hinner.1.1).1
      exact absurd hlt (hij ▸ Nat.lt_irrefl i)
    · obtain ⟨c', hc', hdeclares⟩ := declares_cons.mp hdeclares
      obtain rfl := Option.some.inj (hc.symm.trans hc')
      exact ⟨r, hlt, hdeclares, (innermost_cons_cons hc).mp hinner⟩
  · rintro ⟨r, hlt, hdeclares, hinner⟩
    exact .inr (.inr ⟨r, hlt, declares_cons.mpr ⟨c, hc, hdeclares⟩,
      (innermost_cons_cons hc).mpr hinner⟩)

end Node

end Lox

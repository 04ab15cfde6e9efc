import Mathlib.Tactic
import Lox.Grammar.Statement

/-!
The grammar as a relation. `Derives` says which token sequences a nonterminal stands for, and which
tree belongs to a derivation. It knows neither lookahead nor recovery nor the order in which a
reader takes tokens; a chain of operators grows at its right end, so its tree leans to the left.

An `else` may follow two statements that both could take it. Where `nearest` is true a derivation
gives it to the nearer one, by refusing a first branch to which an `else` could still be added;
where it is false either will do, as in the grammar that people write down.
-/

namespace Lox.Grammar

/-- The levels of operators that stand between their operands, the weakest first. -/
inductive Tier
  | disjunction | conjunction | equality | comparison | sum | product
deriving DecidableEq

/-- The nonterminals for expressions. -/
inductive Phrase
  | expression
  | tier (t : Tier)
  | unary
  | call
  | primary
deriving DecidableEq

namespace Tier

def isOperator : Tier → Token → Bool
  | disjunction => fun t => t.isKeyword .or
  | conjunction => fun t => t.isKeyword .and
  | equality => fun t => t.isPunct .bangEqual || t.isPunct .equalEqual
  | comparison => fun t =>
    t.isPunct .greater || t.isPunct .greaterEqual || t.isPunct .less || t.isPunct .lessEqual
  | sum => fun t => t.isPunct .minus || t.isPunct .plus
  | product => fun t => t.isPunct .slash || t.isPunct .star

/-- Only `and` and `or` may leave their right side alone. -/
def node : Tier → Expr Unit → Token → Expr Unit → Expr Unit
  | disjunction | conjunction => .logical
  | equality | comparison | sum | product => .binary

/-- What stands between the operators of a level. -/
def operand : Tier → Phrase
  | disjunction => .tier conjunction
  | conjunction => .tier equality
  | equality => .tier comparison
  | comparison => .tier sum
  | sum => .tier product
  | product => .unary

end Tier

/-- Pieces in a row with a comma between neighbours. -/
inductive Separated : List (List Token) → List Token → Prop
  | none : Separated [] []
  | one {ts : List Token} : Separated [ts] ts
  | more {ts us rest : List Token} {pieces : List (List Token)} {comma : Token}
      (hcomma : comma.isPunct .comma) (hrest : Separated (us :: pieces) rest) :
      Separated (ts :: us :: pieces) (ts ++ comma :: rest)

inductive Phrase.Derives : Phrase → List Token → Expr Unit → Prop
  | assignment {name equals : Token} {ts : List Token} {value : Expr Unit}
      (hname : name.isIdentifier) (hequals : equals.isPunct .equal)
      (hvalue : Derives .expression ts value) :
      Derives .expression (name :: equals :: ts) (.assign () name value)
  | disjunction {ts : List Token} {e : Expr Unit} (h : Derives (.tier .disjunction) ts e) :
      Derives .expression ts e
  | operand {t : Tier} {ts : List Token} {e : Expr Unit} (h : Derives t.operand ts e) :
      Derives (.tier t) ts e
  | operation {t : Tier} {ts us : List Token} {operator : Token} {left right : Expr Unit}
      (hleft : Derives (.tier t) ts left) (hoperator : t.isOperator operator)
      (hright : Derives t.operand us right) :
      Derives (.tier t) (ts ++ operator :: us) (t.node left operator right)
  | signed {operator : Token} {ts : List Token} {e : Expr Unit}
      (hoperator : operator.isPunct .bang || operator.isPunct .minus)
      (h : Derives .unary ts e) : Derives .unary (operator :: ts) (.unary operator e)
  | unsigned {ts : List Token} {e : Expr Unit} (h : Derives .call ts e) : Derives .unary ts e
  | callee {ts : List Token} {e : Expr Unit} (h : Derives .primary ts e) : Derives .call ts e
  | application {ts us : List Token} {openParen closeParen : Token} {callee : Expr Unit}
      {parts : List (List Token × Expr Unit)} (hcallee : Derives .call ts callee)
      (hopen : openParen.isPunct .leftParen)
      (hparts : ∀ part ∈ parts, Derives .expression part.1 part.2)
      (hseparated : Separated (parts.map Prod.fst) us) (hlimit : parts.length ≤ maxArguments)
      (hclose : closeParen.isPunct .rightParen) :
      Derives .call (ts ++ openParen :: (us ++ [closeParen]))
        (.call callee closeParen (parts.map Prod.snd))
  | falsity {t : Token} (h : t.isKeyword .false) : Derives .primary [t] (.literal (.bool false))
  | truth {t : Token} (h : t.isKeyword .true) : Derives .primary [t] (.literal (.bool true))
  | nil {t : Token} (h : t.isKeyword .nil) : Derives .primary [t] (.literal .nil)
  | number {t : Token} {value : Float} (h : t.kind = .number value) :
      Derives .primary [t] (.literal (.number value))
  | string {t : Token} {contents : String} (h : t.kind = .string contents) :
      Derives .primary [t] (.literal (.string contents))
  | variable {name : Token} (hname : name.isIdentifier) : Derives .primary [name] (.var () name)
  | grouping {openParen closeParen : Token} {ts : List Token} {e : Expr Unit}
      (hopen : openParen.isPunct .leftParen) (h : Derives .expression ts e)
      (hclose : closeParen.isPunct .rightParen) :
      Derives .primary (openParen :: (ts ++ [closeParen])) (.grouping e)

/-- An expression or nothing. -/
inductive DerivesOptional : List Token → Option (Expr Unit) → Prop
  | absent : DerivesOptional [] none
  | present {ts : List Token} {e : Expr Unit} (h : Phrase.expression.Derives ts e) :
      DerivesOptional ts (some e)

/-- A variable declaration behind its keyword. -/
inductive DerivesVariable : List Token → Stmt Unit → Prop
  | plain {name semicolon : Token} (hname : name.isIdentifier)
      (hsemicolon : semicolon.isPunct .semicolon) :
      DerivesVariable [name, semicolon] (.var name none)
  | initialized {name equals semicolon : Token} {ts : List Token} {e : Expr Unit}
      (hname : name.isIdentifier) (hequals : equals.isPunct .equal)
      (h : Phrase.expression.Derives ts e) (hsemicolon : semicolon.isPunct .semicolon) :
      DerivesVariable (name :: equals :: (ts ++ [semicolon])) (.var name (some e))

/-- The first clause of a `for`, with its semicolon. -/
inductive DerivesInitializer : List Token → Option (Stmt Unit) → Prop
  | absent {semicolon : Token} (hsemicolon : semicolon.isPunct .semicolon) :
      DerivesInitializer [semicolon] none
  | variable {keyword : Token} {ts : List Token} {s : Stmt Unit} (hkeyword : keyword.isKeyword .var)
      (h : DerivesVariable ts s) : DerivesInitializer (keyword :: ts) (some s)
  | expression {ts : List Token} {semicolon : Token} {e : Expr Unit}
      (h : Phrase.expression.Derives ts e) (hsemicolon : semicolon.isPunct .semicolon) :
      DerivesInitializer (ts ++ [semicolon]) (some (.expression e))

/-- The nonterminals for statements. -/
inductive Category
  | statement
  | declaration
deriving DecidableEq

/-- One declaration of a block: its tokens, its tree, and whether an `else` behind it would have
    an `if` to belong to. -/
structure Part where
  tokens : List Token
  tree : Stmt Unit
  dangling : Bool

inductive Category.Derives (nearest : Bool) :
    Category → List Token → Stmt Unit → Bool → Prop
  | function {keyword name openParen closeParen openBrace closeBrace : Token}
      {params ts : List Token} {parts : List Part} (hkeyword : keyword.isKeyword .fun)
      (hname : name.isIdentifier) (hopen : openParen.isPunct .leftParen)
      (hparams : ∀ p ∈ params, p.isIdentifier) (hlimit : params.length ≤ maxArguments)
      (hseparated : Separated (params.map fun p => [p]) ts)
      (hclose : closeParen.isPunct .rightParen) (hopenBrace : openBrace.isPunct .leftBrace)
      (hparts : ∀ part ∈ parts, Derives nearest .declaration part.tokens part.tree part.dangling)
      (hcloseBrace : closeBrace.isPunct .rightBrace) :
      Derives nearest .declaration
        (keyword :: name :: openParen :: (ts ++ closeParen :: openBrace ::
          (parts.flatMap Part.tokens ++ [closeBrace])))
        (.function name params (parts.map Part.tree)) false
  | variable {keyword : Token} {ts : List Token} {s : Stmt Unit} (hkeyword : keyword.isKeyword .var)
      (h : DerivesVariable ts s) : Derives nearest .declaration (keyword :: ts) s false
  | statement {ts : List Token} {s : Stmt Unit} {dangling : Bool}
      (h : Derives nearest .statement ts s dangling) : Derives nearest .declaration ts s dangling
  | expression {ts : List Token} {semicolon : Token} {e : Expr Unit}
      (h : Phrase.expression.Derives ts e) (hsemicolon : semicolon.isPunct .semicolon) :
      Derives nearest .statement (ts ++ [semicolon]) (.expression e) false
  | print {keyword semicolon : Token} {ts : List Token} {e : Expr Unit}
      (hkeyword : keyword.isKeyword .print) (h : Phrase.expression.Derives ts e)
      (hsemicolon : semicolon.isPunct .semicolon) :
      Derives nearest .statement (keyword :: (ts ++ [semicolon])) (.print e) false
  | return {keyword semicolon : Token} {ts : List Token} {value : Option (Expr Unit)}
      (hkeyword : keyword.isKeyword .return) (h : DerivesOptional ts value)
      (hsemicolon : semicolon.isPunct .semicolon) :
      Derives nearest .statement (keyword :: (ts ++ [semicolon])) (.return keyword value) false
  | block {openBrace closeBrace : Token} {parts : List Part}
      (hopen : openBrace.isPunct .leftBrace)
      (hparts : ∀ part ∈ parts, Derives nearest .declaration part.tokens part.tree part.dangling)
      (hclose : closeBrace.isPunct .rightBrace) :
      Derives nearest .statement (openBrace :: (parts.flatMap Part.tokens ++ [closeBrace]))
        (.block (parts.map Part.tree)) false
  | ifThen {keyword openParen closeParen : Token} {ts us : List Token} {e : Expr Unit}
      {s : Stmt Unit} {dangling : Bool} (hkeyword : keyword.isKeyword .if)
      (hopen : openParen.isPunct .leftParen) (hcondition : Phrase.expression.Derives ts e)
      (hclose : closeParen.isPunct .rightParen) (hthen : Derives nearest .statement us s dangling) :
      Derives nearest .statement (keyword :: openParen :: (ts ++ closeParen :: us)) (.if e s none)
        true
  | ifElse {keyword openParen closeParen keywordElse : Token} {ts us vs : List Token}
      {e : Expr Unit} {s s' : Stmt Unit} {inside dangling : Bool} (hkeyword : keyword.isKeyword .if)
      (hopen : openParen.isPunct .leftParen) (hcondition : Phrase.expression.Derives ts e)
      (hclose : closeParen.isPunct .rightParen) (hthen : Derives nearest .statement us s inside)
      (hnearest : nearest = true → inside = false) (helse : keywordElse.isKeyword .else)
      (hother : Derives nearest .statement vs s' dangling) :
      Derives nearest .statement
        (keyword :: openParen :: (ts ++ closeParen :: (us ++ keywordElse :: vs)))
        (.if e s (some s')) dangling
  | while {keyword openParen closeParen : Token} {ts us : List Token} {e : Expr Unit}
      {s : Stmt Unit} {dangling : Bool} (hkeyword : keyword.isKeyword .while)
      (hopen : openParen.isPunct .leftParen) (hcondition : Phrase.expression.Derives ts e)
      (hclose : closeParen.isPunct .rightParen) (hbody : Derives nearest .statement us s dangling) :
      Derives nearest .statement (keyword :: openParen :: (ts ++ closeParen :: us)) (.while e s)
        dangling
  | for {keyword openParen semicolon closeParen : Token} {first ts us vs : List Token}
      {initializer : Option (Stmt Unit)} {condition increment : Option (Expr Unit)}
      {s : Stmt Unit} {dangling : Bool} (hkeyword : keyword.isKeyword .for)
      (hopen : openParen.isPunct .leftParen) (hfirst : DerivesInitializer first initializer)
      (hcondition : DerivesOptional ts condition) (hsemicolon : semicolon.isPunct .semicolon)
      (hincrement : DerivesOptional us increment) (hclose : closeParen.isPunct .rightParen)
      (hbody : Derives nearest .statement vs s dangling) :
      Derives nearest .statement
        (keyword :: openParen :: (first ++ (ts ++ semicolon :: (us ++ closeParen :: vs))))
        (forLoop initializer condition increment s) dangling

/-- A program is a sequence of declarations. -/
def DerivesProgram (nearest : Bool) (ts : List Token) (program : List (Stmt Unit)) : Prop :=
  ∃ parts : List Part, ts = parts.flatMap Part.tokens ∧ program = parts.map Part.tree ∧
    ∀ part ∈ parts, Category.declaration.Derives nearest part.tokens part.tree part.dangling

end Lox.Grammar

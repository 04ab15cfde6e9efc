import Lox.Proofs.Execution.Evolution
import Lox.Proofs.Scoping.Place

/-!
Points of a run. A point is a task that is about to be carried out, with the fuel that is left for
it, on the machine as it is then. `Enters` says which tasks a task hands out while it is carried
out: what they find on the machine is what the tasks before them have left there.
-/

namespace Lox

inductive Task
  | evaluate (e : Expr RefId)
  | values (es : List (Expr RefId))
  | call (f : Callable) (arguments : List Value) (paren : Token)
  | execute (s : Stmt RefId)
  | loop (condition : Expr RefId) (body : Stmt RefId)
  | inOrder (body : List (Stmt RefId))
  | run (program : List (Stmt RefId))

structure Point where
  fuel : Nat
  task : Task
  machine : Machine

namespace Point

/-- The second point is a task that the first hands out. -/
inductive Enters : Point → Point → Prop
  | grouping : Enters ⟨n + 1, .evaluate (.grouping e), m⟩ ⟨n, .evaluate e, m⟩
  | operand : Enters ⟨n + 1, .evaluate (.unary operator e), m⟩ ⟨n, .evaluate e, m⟩
  | binaryLeft : Enters ⟨n + 1, .evaluate (.binary left operator right), m⟩ ⟨n, .evaluate left, m⟩
  | binaryRight (hleft : evaluate n left m = .ok value m') :
      Enters ⟨n + 1, .evaluate (.binary left operator right), m⟩ ⟨n, .evaluate right, m'⟩
  | logicalLeft : Enters ⟨n + 1, .evaluate (.logical left operator right), m⟩ ⟨n, .evaluate left, m⟩
  | logicalRight {operator : Token} (hleft : evaluate n left m = .ok value m')
      (hmore : Operation.shortCircuits operator.kind value = false) :
      Enters ⟨n + 1, .evaluate (.logical left operator right), m⟩ ⟨n, .evaluate right, m'⟩
  | assigned : Enters ⟨n + 1, .evaluate (.assign ref name e), m⟩ ⟨n, .evaluate e, m⟩
  | callee : Enters ⟨n + 1, .evaluate (.call e paren arguments), m⟩ ⟨n, .evaluate e, m⟩
  | arguments (hcallee : evaluate n e m = .ok value m') :
      Enters ⟨n + 1, .evaluate (.call e paren arguments), m⟩ ⟨n, .values arguments, m'⟩
  | applied (hcallee : evaluate n e m = .ok value m')
      (harguments : Step.values (evaluate n) arguments m' = .ok values m'')
      (hcallable : value.callee values.length = .ok f) :
      Enters ⟨n + 1, .evaluate (.call e paren arguments), m⟩ ⟨n, .call f values paren, m''⟩
  | firstValue : Enters ⟨n, .values (e :: es), m⟩ ⟨n, .evaluate e, m⟩
  | otherValues (hfirst : evaluate n e m = .ok value m') :
      Enters ⟨n, .values (e :: es), m⟩ ⟨n, .values es, m'⟩
  | called {m : Machine} {f : Closure} (hdepth : m.callDepth < maxCallDepth) :
      Enters ⟨n + 1, .call (.function f) arguments paren, m⟩
        ⟨n, .inOrder f.body, m.called.entered f.frame (f.bindings arguments)⟩
  | expression : Enters ⟨n + 1, .execute (.expression e), m⟩ ⟨n, .evaluate e, m⟩
  | print : Enters ⟨n + 1, .execute (.print e), m⟩ ⟨n, .evaluate e, m⟩
  | initializer : Enters ⟨n + 1, .execute (.var name (some e)), m⟩ ⟨n, .evaluate e, m⟩
  | block {m : Machine} :
      Enters ⟨n + 1, .execute (.block body), m⟩ ⟨n, .inOrder body, m.entered m.environment []⟩
  | condition : Enters ⟨n + 1, .execute (.if e s s'), m⟩ ⟨n, .evaluate e, m⟩
  | thenBranch (hcondition : evaluate n e m = .ok value m') (htruthy : value.isTruthy = true) :
      Enters ⟨n + 1, .execute (.if e s s'), m⟩ ⟨n, .execute s, m'⟩
  | elseBranch (hcondition : evaluate n e m = .ok value m') (htruthy : value.isTruthy = false) :
      Enters ⟨n + 1, .execute (.if e s (some s')), m⟩ ⟨n, .execute s', m'⟩
  | loop : Enters ⟨n + 1, .execute (.while e s), m⟩ ⟨n, .loop e s, m⟩
  | returned : Enters ⟨n + 1, .execute (.return keyword (some e)), m⟩ ⟨n, .evaluate e, m⟩
  | turnCondition : Enters ⟨n + 1, .loop e s, m⟩ ⟨n, .evaluate e, m⟩
  | turnBody (hcondition : evaluate n e m = .ok value m') (htruthy : value.isTruthy = true) :
      Enters ⟨n + 1, .loop e s, m⟩ ⟨n, .execute s, m'⟩
  | nextTurn (hcondition : evaluate n e m = .ok value m') (htruthy : value.isTruthy = true)
      (hbody : execute n s m' = .ok .normal m'') :
      Enters ⟨n + 1, .loop e s, m⟩ ⟨n, .loop e s, m''⟩
  | firstInOrder : Enters ⟨n, .inOrder (s :: rest), m⟩ ⟨n, .execute s, m⟩
  | otherInOrder (hfirst : execute n s m = .ok .normal m') :
      Enters ⟨n, .inOrder (s :: rest), m⟩ ⟨n, .inOrder rest, m'⟩
  | firstRun : Enters ⟨n, .run (s :: rest), m⟩ ⟨n, .execute s, m⟩
  | otherRun (hfirst : execute n s m = .ok flow m') :
      Enters ⟨n, .run (s :: rest), m⟩ ⟨n, .run rest, m'⟩

/-- At this point a frame is made for the region, with the number that is next. -/
inductive Opens : Point → Region → Prop
  | block : Opens ⟨n + 1, .execute (.block body), m⟩ (.block body)
  | function {m : Machine} {f : Closure} (hdepth : m.callDepth < maxCallDepth) :
      Opens ⟨n + 1, .call (.function f) arguments paren, m⟩ (.function f.parameters f.body)

end Point

end Lox

import Lox.Proofs.Execution.Building
import Lox.Proofs.Execution.Comparison
import Lox.Proofs.Execution.Writing

/-!
What every step keeps. If a property of the store holds where a run begins, and no step of the run
breaks it, it holds at every point that the run comes to. So the store is built frame by frame,
every frame is enclosed by a frame that is there, and a machine corresponds to itself, with two
tables that agree on what it has in store.
-/

namespace Lox

/-- The store had a property and has lost it. -/
def Effect.loss (holds : Store → Prop) : Effect where
  occurs m m' _ := holds m.store ∧ ¬ holds m'.store
  irrefl _ h := h.2 h.1
  split {m m' m'' stop} h := by
    by_cases hmiddle : holds m'.store
    · exact .inr ⟨hmiddle, h.2⟩
    · exact .inl ⟨h.1, hmiddle⟩
  leave := id

namespace Survey

variable {S : Survey} {holds : Store → Prop} {p q : Point}

/-- No step at a visited point makes the store lose the property. -/
def Keeps (S : Survey) (holds : Store → Prop) : Prop :=
  ∀ ⦃p m α⦄ ⦃step : Step α⦄, S.visited p → p.Acts m step → holds m.store →
    holds (step.after m).store

/-- What no step breaks still holds behind a visited point. -/
theorem Keeps.after (hkeeps : S.Keeps holds) (hp : S.visited p) (h : holds p.machine.store) :
    holds p.after.store := by
  by_contra hlost
  have hat : (Effect.loss holds).At p := ⟨h, hlost⟩
  obtain ⟨calls, q, m, α, step, -, hvisited, hacts, -, -, hm, hstep⟩ :=
    Effect.exists_act S.visited (fun _ _ hp henters _ => S.enters hp henters) hp hat
  exact hstep (hkeeps hvisited hacts hm)

/-- A task finds what the tasks before it have left, or a new frame. -/
theorem Keeps.enters (hkeeps : S.Keeps holds) (hp : S.visited p) (henters : p.Enters q)
    (h : holds p.machine.store) : holds q.machine.store := by
  have hevaluate {n e m value m'} (hpoint : S.visited ⟨n, .evaluate e, m⟩)
      (hok : evaluate n e m = .ok value m') (hm : holds m.store) : holds m'.store := by
    have hafter : holds ((evaluate n e).after m).store := hkeeps.after hpoint hm
    rwa [Step.after, hok] at hafter
  have hvalues {n es m values m'} (hpoint : S.visited ⟨n, .values es, m⟩)
      (hok : Step.values (evaluate n) es m = .ok values m') (hm : holds m.store) :
      holds m'.store := by
    have hafter : holds ((Step.values (evaluate n) es).after m).store := hkeeps.after hpoint hm
    rwa [Step.after, hok] at hafter
  have hexecute {n s m flow m'} (hpoint : S.visited ⟨n, .execute s, m⟩)
      (hok : execute n s m = .ok flow m') (hm : holds m.store) : holds m'.store := by
    have hafter : holds ((execute n s).after m).store := hkeeps.after hpoint hm
    rwa [Step.after, hok] at hafter
  cases henters with
  | called hdepth => exact hkeeps hp (.called hdepth) h
  | block => exact hkeeps hp .block h
  | binaryRight hok => exact hevaluate (S.enters hp .binaryLeft) hok h
  | logicalRight hok => exact hevaluate (S.enters hp .logicalLeft) hok h
  | arguments hok => exact hevaluate (S.enters hp .callee) hok h
  | applied hcallee harguments =>
    have hpoint := S.enters hp (.arguments hcallee)
    exact hvalues hpoint harguments (hevaluate (S.enters hp .callee) hcallee h)
  | otherValues hok => exact hevaluate (S.enters hp .firstValue) hok h
  | thenBranch hok | elseBranch hok => exact hevaluate (S.enters hp .condition) hok h
  | turnBody hok => exact hevaluate (S.enters hp .turnCondition) hok h
  | nextTurn hok htruthy hbody =>
    have hpoint := S.enters hp (.turnBody hok htruthy)
    exact hexecute hpoint hbody (hevaluate (S.enters hp .turnCondition) hok h)
  | otherInOrder hok => exact hexecute (S.enters hp .firstInOrder) hok h
  | otherRun hok => exact hexecute (S.enters hp .firstRun) hok h
  | _ => exact h

end Survey

/-- Every frame that encloses another is there. -/
def Store.Grounded (s : Store) : Prop :=
  ∀ f parent, s.parent? f = some parent → parent < s.next

/-- A store that was built frame by frame links each frame to an earlier one. -/
theorem Store.Built.grounded {s : Store} (hs : s.Built) : s.Grounded := fun f parent hlink =>
  Nat.lt_trans (hs.descending f parent hlink) (Store.lt_next_of_parent? hlink)

/-- Where frames and scopes agree, a step builds on the store: its new frames stand in front of
    frames that are there. -/
theorem Survey.Ready.built_after {S : Survey} {nest : Nest} {p : Point} {m : Machine} {α : Type}
    {step : Step α} (h : S.Ready nest p) (hacts : p.Acts m step) (hm : m.store.Built) :
    (step.after m).store.Built := by
  obtain hstore | ⟨name, value, hstore⟩ | ⟨ref, token, e, f, value, -, -, hstore⟩ |
    ⟨enclosing, bindings, hstore, henclosing⟩ := hacts.store_cases
  · rw [hstore]
    exact hm
  · rw [hstore]
    exact hm.define m.environment name value
  · rw [hstore]
    exact hm.write f token.lexeme value
  · rw [hstore]
    refine hm.push (fun parent hparent => ?_) bindings
    obtain rfl : enclosing = parent := Option.some.inj hparent
    obtain ⟨n, body, rfl, rfl⟩ | ⟨n, k, arguments, paren, rfl, -, rfl⟩ := henclosing
    · obtain ⟨hstands, -⟩ := h.placed
      exact hstands.realizes.lt_next h.consistent
    · obtain ⟨⟨nest', hrealizes, -⟩, -⟩ := h.placed
      exact hrealizes.lt_next h.consistent

/-- The frames are linked to frames that are there, up to the globals, and identities from `first`
    on are left: no function has a reference with one of them, and the table says nothing of
    them. -/
structure Machine.Sound (first : RefId) (m : Machine) : Prop where
  grounded : m.store.Grounded
  environment_lt : m.environment < m.store.next
  globals_lt : m.globals < m.store.next
  outermost : m.store.parent? m.globals = none
  frame_lt : ∀ f name k, m.store.read? f name = some (.function k) → k.frame < m.store.next
  references : ∀ f name k, m.store.read? f name = some (.function k) →
    ∀ r ∈ Stmt.referencesAll k.body, r.1 < first
  unknown : ∀ ref : Nat, first ≤ ref → m.distances[ref]? = none

/-- Where frames and scopes agree, functions have references of known places only. -/
theorem Survey.Consistent.sound {S : Survey} {m : Machine} {first : RefId} (hm : S.Consistent m)
    (hgrounded : m.store.Grounded) (hhere : m.environment < m.store.next)
    (hknown : ∀ p, S.place p → ∀ r ∈ p.expression.references, r.1 < first)
    (hunknown : ∀ ref : Nat, first ≤ ref → m.distances[ref]? = none) : m.Sound first where
  grounded := hgrounded
  environment_lt := hhere
  globals_lt := hm.globals_lt
  outermost := hm.parent?_globals
  frame_lt f name k hread := by
    obtain ⟨nest, hrealizes, -⟩ := hm.rooted f name _ hread
    exact hrealizes.lt_next hm
  references f name k hread r hr := by
    obtain ⟨nest, -, -, hplaces, -⟩ := hm.rooted f name _ hread
    rw [Stmt.references_placesAll, List.mem_flatMap] at hr
    obtain ⟨p, hp, hr⟩ := hr
    exact hknown p (hplaces p hp) r hr
  unknown := hunknown

namespace Comparison

/-! A machine corresponds to itself. It may have two tables, which say the same of references that
are in use. -/

variable {ι : Type} {C : Comparison ι} {m : Machine} {first : RefId}

/-- Every value that is stored corresponds to itself, if the functions do. -/
theorem values_same
    (hvalues : ∀ f name k, m.store.read? f name = some (.function k) →
      C.Closures (.same m.store.next) k k)
    {f : FrameId} {name : String} {value : Value} (hread : m.store.read? f name = some value) :
    C.Values (.same m.store.next) value value := by
  cases value with
  | function k => exact .function (hvalues f name k hread)
  | _ => exact .plain nofun

/-- Where each frame is beside itself, the store corresponds to itself. -/
theorem stores_same (hm : m.Sound first)
    (hvalues : ∀ f name k, m.store.read? f name = some (.function k) →
      C.Closures (.same m.store.next) k k) :
    C.Stores (.same m.store.next) m.globals m.globals m.store m.store where
  lt_next := by
    rintro c _ f ⟨-, rfl, hlt⟩
    exact ⟨hlt, hlt⟩
  parent? := by
    rintro _ _ f - ⟨rfl, rfl, hlt⟩
    generalize hlink : m.store.parent? f = parent
    cases parent with
    | none => exact .none
    | some parent => exact .some ⟨rfl, rfl, hm.grounded f parent hlink⟩
  first _ := nofun
  second _ := nofun
  eq_iff := by
    rintro b c _ f _ g - - ⟨-, rfl, -⟩ ⟨-, rfl, -⟩
    rfl
  innermost_eq := by
    rintro _ _ f f' - - ⟨rfl, -⟩ ⟨rfl, -⟩
    rfl
  read? := by
    rintro _ _ f n n' - ⟨rfl, rfl, -⟩ hname
    obtain rfl : n' = n := hname
    generalize hread : m.store.read? f n' = found
    cases found with
    | none => exact .none
    | some value => exact .some (values_same hvalues hread)
  globals := ⟨rfl, rfl, hm.globals_lt⟩
  outermost := hm.outermost

/-- A machine corresponds to itself, on whatever levels, if the functions that it stores do. The two
    tables need only say what the references are compared by. -/
theorem machines_same (hm : m.Sound first)
    (hvalues : ∀ f name k, m.store.read? f name = some (.function k) →
      C.Closures (.same m.store.next) k k)
    {table table' : Distances}
    (hdistances : ∀ {r r' : Nat} {entry entry'}, C.refs r r' entry entry' →
      table[r]? = entry ∧ table'[r']? = entry')
    (hbefore : C.before = "") :
    C.Machines (.same m.store.next) [] { m with distances := table }
      { m with distances := table' } where
  store := stores_same hm hvalues
  here := ⟨rfl, rfl, hm.environment_lt⟩
  callDepth := rfl
  distances := hdistances
  functions := rfl
  clock := rfl
  output := by rw [hbefore, String.empty_append]

end Comparison

end Lox

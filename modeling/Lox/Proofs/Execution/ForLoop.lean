import Lox.Proofs.Execution.Ending
import Lox.Proofs.Scoping.ForLoop

/-!
Running a loop by its clauses, and running its tree. By its clauses, a loop has one frame from its
initializer to its end, in which its condition, its body and its increment run in turn. The tree has
no frame around a loop without an initializer, and one more around each turn with an increment.
-/

namespace Lox

namespace ForLoop

/-- Whether there is another turn. A condition that is absent is true. -/
def goesOn (l : ForLoop RefId) (fuel : Nat) : Step Bool :=
  match l.condition with
  | some e => do
    return (← evaluate fuel e).isTruthy
  | none => pure true

/-- One turn: the body, and then the increment, unless the body returns. -/
def runTurn (l : ForLoop RefId) (fuel : Nat) : Step Flow := do
  match ← execute fuel l.body with
  | .normal =>
    match l.increment with
    | some e => do
      let _ ← evaluate fuel e
      pure .normal
    | none => pure .normal
  | .returned value => pure (.returned value)

/-- Turns for as long as the loop goes on. -/
def turns (l : ForLoop RefId) : Nat → Step Flow
  | 0 => throw .outOfFuel
  | fuel + 1 => do
    if ← l.goesOn fuel then
      match ← l.runTurn fuel with
      | .normal => l.turns fuel
      | .returned value => pure (.returned value)
    else
      pure .normal

/-- Runs the initializer once and then the turns, all in one new frame. -/
def run (l : ForLoop RefId) : Nat → Step Flow
  | 0 => throw .outOfFuel
  | fuel + 1 => do
    Step.inFrame (← get).environment [] do
      match ← Step.inOrder (execute fuel) l.initializer.toList with
      | .normal => l.turns fuel
      | .returned value => pure (.returned value)

/-- One turn, and then the turns that are left unless the body returns. -/
theorem turns_succ (l : ForLoop RefId) (fuel : Nat) : l.turns (fuel + 1) =
    (do if ← l.goesOn fuel then (l.runTurn fuel).andThen (l.turns fuel) else pure .normal) := rfl

/-- The initializer and the turns, in one new frame. -/
theorem run_succ (l : ForLoop RefId) (fuel : Nat) : l.run (fuel + 1) =
    (do
      Step.inFrame (← get).environment []
        ((Step.inOrder (execute fuel) l.initializer.toList).andThen (l.turns fuel))) := rfl

/-- A turn comes back to the frame in which it started. -/
theorem evolves_runTurn (l : ForLoop RefId) (fuel : Nat) : (l.runTurn fuel).Evolves true := by
  obtain ⟨hevaluate, -, hexecute, -⟩ := evolves fuel
  refine (hexecute l.body).bind fun flow => ?_
  cases flow with
  | normal =>
    dsimp only
    split
    · exact (hevaluate _).weaken.bind fun _ => .pure _
    · exact .pure _
  | returned value => exact .pure _

/-- Without an increment a turn is the body and nothing else. -/
theorem runTurn_of_none {l : ForLoop RefId} (h : l.increment = none) (fuel : Nat) :
    l.runTurn fuel = execute fuel l.body := by
  funext m
  rw [runTurn, Step.bind_apply, h]
  cases execute fuel l.body m with
  | ok flow m' => cases flow <;> rfl
  | error => rfl

/-- An increment is evaluated behind the body, unless the body returns. -/
theorem runTurn_of_some {l : ForLoop RefId} {e : Expr RefId} (h : l.increment = some e)
    (fuel : Nat) : l.runTurn fuel =
      (execute fuel l.body).andThen (do let _ ← evaluate fuel e; pure .normal) := by
  rw [runTurn, h]
  rfl

instance (l : ForLoop RefId) (fuel : Nat) : (l.goesOn fuel).Grows := by
  unfold goesOn
  split <;> infer_instance

instance (l : ForLoop RefId) (fuel : Nat) : (l.runTurn fuel).Grows :=
  (l.evolves_runTurn fuel).grows

instance (l : ForLoop RefId) (fuel : Nat) : (l.turns fuel).Grows := by
  induction fuel with
  | zero => exact .throw _
  | succ fuel ih =>
    rw [turns_succ]
    infer_instance

instance (l : ForLoop RefId) (fuel : Nat) : (l.run fuel).Grows := by
  cases fuel with
  | zero => exact .throw _
  | succ fuel =>
    rw [run_succ]
    infer_instance

variable {P : Layered} {side : Side} {w : Pairing Level} {c : Layout} {l l' : ForLoop RefId}
  {n n' k j : Nat}

/-- The tree of the loop has a condition that is true where the clause is absent. -/
theorem Repeats.goesOn (h : Repeats P c l l') (hlead : side.Leads 1 (k + 1) (j + 1)) :
    P.comparison.Steps (some side) w c (fun _ goesOn value => value.isTruthy = goesOn) (l.goesOn k)
      (evaluate j l'.test) := by
  have hcondition := h.condition
  unfold ForLoop.goesOn test
  generalize l.condition = condition, l'.condition = condition' at hcondition ⊢
  cases hcondition with
  | none =>
    exact .of_succ_second (g := fun j => evaluate j _) rfl hlead (by omega) fun _ _ => .pure rfl
  | @some e e' he =>
    have hsteps := (Layered.runs P side j).evaluate k (hlead.pred Nat.one_pos (by omega)) w c _ _
      (Layered.expressions_of_alike he)
    have hrun : P.comparison.Steps (some side) w c (fun _ goesOn value => value.isTruthy = goesOn)
        (do return (← evaluate k e).isTruthy) (evaluate j e' >>= pure) :=
      hsteps.bind fun _ _ _ _ hvalue => .pure hvalue.resembles.isTruthy
    rwa [bind_pure] at hrun

/-- A turn by its clauses is a turn of the tree, where a block stands around an increment. -/
theorem Repeats.runTurn (h : Repeats P c l l') (hlead : side.Leads 1 (k + 1) (j + 1)) :
    P.comparison.Steps (some side) w c P.comparison.Flows (l.runTurn k) (execute j l'.turn) := by
  obtain ⟨hfirst, hsecond, hbody⟩ | ⟨e, e', hfirst, hsecond, hbody, he⟩ := h.turn
  · rw [runTurn_of_none hfirst, ForLoop.turn, hsecond]
    exact (Layered.runs P side j).execute k true (hlead.pred Nat.one_pos (by omega)) w c _ _ hbody
  · rw [ForLoop.turn, hsecond]
    refine .of_succ_second (g := fun j => execute j _) rfl hlead (by omega) ?_
    rintro i rfl
    refine .inSecond (l.evolves_runTurn k) (l := .only .second) rfl fun w' _ => ?_
    have hleadBody : side.Leads 0 k i := hlead.pred (d := 2) (Nat.succ_pos 1) (by omega)
    rw [runTurn_of_some hfirst, Step.inOrder_cons, Step.inOrder_singleton]
    refine ((Layered.runs P side i).execute k true hleadBody w' _ _ _ hbody).andThen
      fun w'' _ => ?_
    refine .of_succ_second (g := fun i => execute i _) (d := 2) rfl hlead (by omega) ?_
    rintro h rfl
    have hleadIncrement : side.Leads 0 k h := hlead.pred (d := 3) (Nat.succ_pos 2) (by omega)
    exact ((Layered.runs P side h).evaluate k hleadIncrement w'' _ _ _
      (Layered.expressions_of_alike he)).bind fun _ _ _ _ _ => .pure .normal

/-- The turns by the clauses are the turns of the tree. -/
theorem Repeats.turns (h : Repeats P c l l') (hlead : side.Leads 1 n j) :
    P.comparison.Steps (some side) w c P.comparison.Flows (l.turns n) (loop j l'.test l'.turn) := by
  induction j generalizing n w with
  | zero => exact .exhausted (f := l.turns) rfl hlead (by omega)
  | succ j ih =>
    refine .of_succ (f := l.turns) rfl hlead (by omega) fun k hlead => ?_
    have hleadRest : side.Leads 1 k j := Side.Leads.weaken (hlead.pred (by omega)) 1
    rw [turns_succ, loop_succ]
    refine (h.goesOn hlead).bind fun w' _ goesOn value heq => ?_
    rw [heq]
    split
    · exact (h.runTurn hlead).andThen fun w'' _ => ih hleadRest
    · exact .pure .normal

/-- By its clauses and by its tree, the loop has corresponding results. -/
theorem Corresponds.run (h : Corresponds P c l l') (hlead : side.Leads 0 n n') :
    P.comparison.Steps (some side) w c P.comparison.Flows (l.run n) (execute n' l'.tree) := by
  cases n' with
  | zero => exact .exhausted (f := l.run) rfl hlead (by omega)
  | succ j =>
    refine .of_succ (f := l.run) rfl hlead (by omega) fun k hlead => ?_
    have hleadTurns : side.Leads 1 k j := Side.Leads.weaken (hlead.pred (by omega)) 1
    cases h with
    | bare hfirst hsecond h =>
      -- Only the first machine has a frame for the loop.
      rw [ForLoop.run, tree, hfirst, hsecond]
      exact .inFirst ((evolves (j + 1)).2.2.1 _) (l := .only .first) rfl fun w' _ =>
        h.turns hleadTurns
    | @enclosed first first' hfirst hsecond hinitializer h =>
      rw [run_succ, tree, hfirst, hsecond, Option.toList_some, Step.inOrder_singleton]
      refine Comparison.Steps.get.bind fun _ _ m m' hm =>
        .inFrame hm.here (l := .both) rfl .nil fun w' _ => ?_
      rw [Step.inOrder_cons, Step.inOrder_singleton]
      have hexecute := (Layered.runs P side j).execute k true (hlead.pred (by omega)) w'
      refine (hexecute _ _ _ hinitializer).andThen fun w'' _ => ?_
      refine .of_succ_second (g := fun j => execute j _) rfl hlead (by omega) ?_
      rintro i rfl
      have hleadInner : side.Leads 0 k i :=
        Side.Leads.pred (d := 2) hlead (Nat.succ_pos 1) (by omega)
      exact h.turns (hleadInner.weaken 1)

/-- The table with the distances of the clauses, which stand in a scope of their own. -/
def learned (l : ForLoop RefId) (nest : Nest) (table : Distances) : Distances :=
  table.insertMany ((Stmt.block l.clauses).findings false nest.scopes).1.distances

/-- On this machine, among these scopes, running the loop by its clauses and executing its tree end
    the same, whatever statements come behind. The references of the tree are numbered from `k` on,
    and those of the clauses from `fresh` on, where identities are left. -/
structure SameMeaning (l : ForLoop Unit) (nest : Nest) (k fresh : RefId) (m : Machine) : Prop where
  endings : SameEndings m.store.next
    (fun n => (l.number fresh).1.run n
      { m with distances := (l.number fresh).1.learned nest m.distances })
    (fun n => execute n (l.tree.number k).1 m)
  followed : ∀ rest : List (Stmt RefId), (∀ r ∈ Stmt.referencesAll rest, r.1 < fresh) →
    SameEndings m.store.next
      (fun n => ((l.number fresh).1.run n).andThen (Step.inOrder (execute n) rest)
        { m with distances := (l.number fresh).1.learned nest m.distances })
      (fun n => (execute n (l.tree.number k).1).andThen (Step.inOrder (execute n) rest) m)

/-- Numbering goes through the clauses in the order of the tree. -/
theorem number_block_clauses (l : ForLoop Unit) (fresh : RefId) :
    ((Stmt.block l.clauses).number fresh).1 = .block (l.number fresh).1.clauses := by
  rw [Stmt.number, numberAll_clauses]

/-- On every machine that has the distances of the tree, the loop means the same by its clauses. -/
theorem sameMeaning (l : ForLoop Unit) {k fresh : RefId} {nest : Nest} {m : Machine}
    (hm : m.Sound fresh)
    (hknown : ∀ p ∈ ((l.tree.number k).1.places nest).1, p.Known m.distances) :
    l.SameMeaning nest k fresh m := by
  let P : Layered := ⟨(l.number fresh).1.learned nest m.distances, m.distances, False⟩
  have hfirst : ∀ p ∈ ((Stmt.block (l.number fresh).1.clauses).places nest).1, p.Known P.first := by
    intro p hp reference hreference
    simp only [P, learned, ← number_block_clauses] at hp ⊢
    exact Stmt.getElem?_learn hm.unknown hp hreference
  have hagree : ∀ ref < fresh, P.first[ref]? = P.second[ref]? := by
    intro ref hlt
    simp only [P, learned, ← number_block_clauses]
    exact Stmt.getElem?_learn_of_lt hlt
  have hmachines := Layered.machines_same (P := P) hm hagree
  rw [number_tree] at hknown
  have hcorresponds : Corresponds P [] (l.number fresh).1 (l.number k).1 :=
    (l.alike_number fresh k).corresponds .same hfirst hknown
  constructor
  · rw [number_tree]
    exact Layered.sameEndings id le_rfl hmachines fun _ _ _ hlead => hcorresponds.run hlead
  · intro rest hrest
    rw [number_tree]
    have hstatements : P.StatementsAll [] rest rest :=
      Layered.statementsAll_same Layout.Even.nil rest fun r hr => hagree r.1 (hrest r hr)
    refine Layered.sameEndings id le_rfl hmachines fun side n n' hlead => ?_
    refine (hcorresponds.run hlead).andThen fun w' _ => .inOrder (fun w => ?_) hstatements.forall₂
    exact (Layered.runs P side n').execute n true hlead w []

end ForLoop

end Lox

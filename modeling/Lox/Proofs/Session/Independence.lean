import Mathlib
import Lox.Proofs.Execution.Returning
import Lox.Proofs.Execution.Sparing
import Lox.Proofs.Session.Lineage

namespace Lox

namespace Point

/-- The statement at this point makes the function. -/
inductive Makes : Point → Closure → Prop
  | mk {m : Machine} : Makes ⟨n + 1, .execute (.function name parameters body), m⟩
      ⟨m.functions, name, parameters, body, m.environment⟩

variable {p q : Point} {f : Closure}

/-- Statements inside others have the frames of these on their chain. -/
theorem Contains.frameAbove? (h : p.Contains q) (hp : p.task.isStatements) :
    p.machine.Precedes q.machine ∧
      ∃ links, q.machine.store.frameAbove? q.machine.environment links =
        some p.machine.environment := by
  induction h with
  | refl => exact ⟨.refl _, 0, rfl⟩
  | @enters q r hcontains henters hstatements ih =>
    obtain ⟨hprecedes, links, hlinks⟩ := ih
    have hframe := henters.precedes.frameAbove? hlinks
    refine ⟨hprecedes.trans henters.precedes, ?_⟩
    obtain ⟨-, hevolves⟩ | ⟨body, -, hm⟩ | ⟨k, arguments, paren, htask, -⟩ := henters.machine_cases
    · exact ⟨links, hevolves.environment ▸ hframe⟩
    · refine ⟨links + 1, Store.frameAbove?_succ.mpr ⟨q.machine.environment, ?_, hframe⟩⟩
      rw [hm]
      exact Store.parent?_push_next
    · have hq := hcontains.isStatements hp
      rw [htask] at hq
      cases hq

/-- Statements inside others hold no further references. -/
theorem Contains.references_subset (h : p.Contains q) (hp : p.task.isStatements) :
    q.task.references ⊆ p.task.references := by
  induction h with
  | refl => exact List.Subset.refl _
  | @enters q r hcontains henters _ ih =>
    have hq := hcontains.isStatements hp
    have hclosure : q.task.closure? = none := by
      cases htask : q.task with
      | call =>
        rw [htask] at hq
        cases hq
      | _ => rfl
    exact List.Subset.trans (henters.references_subset hclosure) ih

end Point

/-- The functions come from the same text. -/
structure Closure.SameText (f g : Closure) : Prop where
  name : f.name = g.name
  parameters : f.parameters = g.parameters
  body : f.body = g.body

namespace Session

/-- The function `f` was made in a call of `h` that had this frame, by a declaration in its body. -/
def MadeIn (runs : List Run) (h : Closure) (frame : FrameId) (f : Closure) : Prop :=
  ∃ c body d arguments paren, Visited runs c ∧ c.task = .call (.function h) arguments paren ∧
    c.Enters body ∧ body.machine.environment = frame ∧ body.Contains d ∧ d.Makes f

variable {runs : List Run} {h f : Closure} {frame : FrameId} {last : Machine}

/-- What a visited point reaches is visited. -/
theorem Visits.reaches {p q : Point} {calls : List Closure} (h : Visits runs p)
    (hreaches : p.Reaches calls q) : Visits runs q := by
  induction hreaches with
  | refl => exact h
  | enters _ henters ih => exact ih.enters henters

/-- What a visited point contains is visited. -/
theorem visited_of_contains {p q : Point} (hp : Visited runs p) (hcontains : p.Contains q) :
    Visited runs q := by
  induction hcontains with
  | refl => exact hp
  | enters _ henters _ ih => exact (survey runs).enters ih henters

/-- A place of earlier runs is one of the later. -/
theorem place_of_suffix {runs' : List Run} {p : Place} (hsuffix : runs' <:+ runs)
    (hp : (survey runs').place p) : (survey runs).place p := by
  obtain ⟨a, ⟨r, earlier, s, hsuffix', hs, ha⟩, hp⟩ := hp
  exact ⟨a, ⟨r, earlier, s, hsuffix'.trans hsuffix, hs, ha⟩, hp⟩

/-- The frame of a call lies on the chain of a function that was made in it, in front of the frame
    of the function that was called, and as deep as the text of that function. -/
theorem MadeIn.frames (hmade : MadeIn runs h frame f)
    (hlast : ∀ p, Visited runs p → p.machine.Precedes last) :
    last.store.parent? last.globals = none ∧
      (∃ links, last.store.frameAbove? f.frame links = some frame) ∧
      Stmt.referencesAll f.body ⊆ Stmt.referencesAll h.body ∧
      ∃ nest : Nest, last.store.frameAbove? frame (nest.length + 1) = some last.globals ∧
        ∀ p ∈ (Stmt.placesAll
          ((.function h.parameters h.body, Scope.ofParameters h.parameters) :: nest) h.body).1,
          (survey runs).place p := by
  obtain ⟨c, body, d, arguments, paren, hc, htask, henters, rfl, hcontains, hmakes⟩ := hmade
  have hbody := (survey runs).enters hc henters
  have hd := visited_of_contains hbody hcontains
  obtain ⟨runs', hsuffix, hvisits⟩ := hc
  have hclast := hlast c ⟨runs', hsuffix, hvisits⟩
  obtain ⟨_, hready⟩ := hvisits.ready
  obtain ⟨n, task, m⟩ := c
  obtain rfl : task = .call (.function h) arguments paren := htask
  obtain ⟨⟨nest, hrealizes, -, hplaces, -⟩, -⟩ := hready.placed
  have hroot : last.store.parent? last.globals = none := by
    rw [hclast.globals]
    exact (hclast.parent? _ hready.consistent.globals_lt).trans hready.consistent.parent?_globals
  cases henters with
  | called hdepth =>
    have hstatements : (Task.inOrder h.body).isStatements := rfl
    obtain ⟨-, links, hlinks⟩ := hcontains.frameAbove? hstatements
    have hreferences := hcontains.references_subset hstatements
    cases hmakes with
    | mk =>
      refine ⟨hroot, ⟨links, (hlast _ hd).frameAbove? hlinks⟩, hreferences, nest, ?_,
        fun p hp => place_of_suffix hsuffix (hplaces p hp)⟩
      have hparent : last.store.parent? m.store.next = some h.frame := by
        refine (hlast _ hbody).parent?_eq_some _ _ (Store.parent?_push_next.trans ?_)
        rw [Frame.enclosing_foldl_define]
        rfl
      refine Store.frameAbove?_succ.mpr ⟨h.frame, hparent, ?_⟩
      rw [hclast.globals]
      exact hclast.frameAbove? hrealizes.frameAbove?_length

/-- Calls of a function leave the frame of another call alone, in which a function of the same
    declaration was made. -/
theorem MadeIn.read?_afterCalls {h' f' : Closure} {frame' : FrameId}
    (hmade : MadeIn runs h frame f) (hmade' : MadeIn runs h' frame' f') (hsame : h.SameText h')
    (hframes : frame ≠ frame') {p : Point} (hp : Visited runs p)
    (hlt : frame' < p.machine.store.next) {calls : List Call}
    (hcalls : f.CallsAvoid frame' p.machine calls) (name : String) :
    (f.afterCalls p.machine calls).store.read? frame' name =
      p.machine.store.read? frame' name := by
  obtain ⟨last, hlast, -⟩ := exists_last runs
  obtain ⟨hroot, ⟨links, hlinks⟩, hreferences, nest, hdepth, hplaces⟩ := hmade.frames hlast
  obtain ⟨-, -, -, nest', hdepth', hplaces'⟩ := hmade'.frames hlast
  by_cases hnone : Stmt.referencesAll h.body = []
  · rw [hnone] at hreferences
    exact Closure.read?_afterCalls_of_references (List.subset_nil.mp hreferences) hlt name
  rw [hsame.body] at hplaces hnone
  have hlength := length_eq_of_referencesAll hplaces hplaces' hnone
  simp only [List.length_cons, Nat.add_right_cancel_iff] at hlength
  have hplast := hlast p hp
  refine Closure.read?_afterCalls_of_not_onChain hlt (fun hchain => ?_) (fun hchain => ?_) hcalls
    name
  · have hglobals := hplast.onChain hchain
    rw [← hplast.globals] at hglobals
    obtain rfl := hglobals.eq_of_root hroot
    obtain ⟨parent, hparent, -⟩ := Store.frameAbove?_succ.mp hdepth'
    rw [hroot] at hparent
    cases hparent
  · obtain ⟨links', hlinks'⟩ := hplast.onChain hchain
    have hend := (Store.frameAbove?_add hlinks).trans hdepth
    have hcount := Store.links_eq_of_end hroot hend hlinks' hdepth'
    obtain rfl : links = links' := by omega
    exact hframes (Option.some.inj (hlinks.symm.trans hlinks'))

/-- Whatever opens a region hands out just its statements, and these have a frame that was not there
    before. The other frames are as they were. -/
theorem exists_frame_of_opens {p : Point} {region : Region} (h : p.Opens region) :
    ∃ q, p.Enters q ∧ (∀ q', p.Enters q' → q' = q) ∧
      p.machine.store.frame? q.machine.environment = none ∧
      (q.machine.store.frame? q.machine.environment).isSome ∧
      ∀ f, (p.machine.store.frame? f).isSome →
        q.machine.store.frame? f = p.machine.store.frame? f := by
  have hfresh (s : Store) : s.frame? s.next = none := Array.getElem?_eq_none (Nat.le_refl _)
  have hpushed (s : Store) (frame : Frame) : ((s.push frame).frame? s.next).isSome := by
    simp [Store.frame?_push]
  have hkept (s : Store) (frame : Frame) (f : FrameId) (hf : (s.frame? f).isSome) :
      (s.push frame).frame? f = s.frame? f := by
    refine Store.frame?_push.trans (if_neg fun hnext => ?_)
    rw [hnext, hfresh] at hf
    cases hf
  cases h with
  | block =>
    refine ⟨_, .block, fun q' hq' => ?_, hfresh _, hpushed _ _, hkept _ _⟩
    cases hq'
    rfl
  | function hdepth =>
    refine ⟨_, .called hdepth, fun q' hq' => ?_, hfresh _, hpushed _ _, hkept _ _⟩
    cases hq'
    rfl

/-- Every block and every call that has room gets a frame that was not there before. A step that
    makes or changes a binding in a frame finds it on the chain of the current frame, and whatever a
    task makes of the bindings in older frames is the work of such steps. So let functions be made
    in two calls of one function, or of functions of the same text, with two frames. Calls of the
    first, in any number, with any arguments and outcomes, leave every binding in the frame of the
    second call as it was, unless they call in their turn a function that has this frame on its
    chain. -/
theorem closures_independent :
    (∀ p region, Point.Opens p region → ∃ q, p.Enters q ∧ (∀ q', p.Enters q' → q' = q) ∧
      p.machine.store.frame? q.machine.environment = none ∧
      (q.machine.store.frame? q.machine.environment).isSome ∧
      ∀ f, (p.machine.store.frame? f).isSome →
        q.machine.store.frame? f = p.machine.store.frame? f) ∧
    (∀ runs p f name, Visits runs p →
      (∀ m α (step : Step α), p.Acts m step → f < m.store.next → step.Changes m f name →
        m.store.OnChain m.environment f) ∧
      (f < p.machine.store.next → p.after.store.read? f name ≠ p.machine.store.read? f name →
        ∃ calls q m α, ∃ step : Step α, p.Reaches calls q ∧ q.Acts m step ∧
          step.Changes m f name ∧ m.store.OnChain m.environment f)) ∧
    ∀ runs h h' frame frame' f f', MadeIn runs h frame f → MadeIn runs h' frame' f' →
      h.SameText h' → frame ≠ frame' →
        ∀ p calls, Visited runs p → frame' < p.machine.store.next →
          f.CallsAvoid frame' p.machine calls → ∀ name,
            (f.afterCalls p.machine calls).store.read? frame' name =
              p.machine.store.read? frame' name := by
  refine ⟨fun p region => exists_frame_of_opens, fun runs p f name hvisits => ⟨?_, ?_⟩, ?_⟩
  · intro m α step hacts hf hchanges
    obtain ⟨nest, hready⟩ := hvisits.ready
    exact hready.onChain_of_changes hacts hf hchanges
  · intro hf hread
    obtain ⟨calls, q, m, α, step, hreaches, hacts, hlt, -, hchanges⟩ :=
      Point.exists_act_of_read?_ne hf hread
    obtain ⟨nest, hready⟩ := (hvisits.reaches hreaches).ready
    exact ⟨calls, q, m, α, step, hreaches, hacts, hchanges,
      hready.onChain_of_changes hacts hlt hchanges⟩
  · intro runs h h' frame frame' f f' hmade hmade' hsame hframes p calls hp hlt hcalls name
    exact hmade.read?_afterCalls hmade' hsame hframes hp hlt hcalls name

/-- A function that makes a function, called twice. -/
def makingRun : Run :=
  ⟨fun _ => 0, 20, "fun make() \x7b var n; fun set() \x7b n = true; \x7d \x7d make(); make();"⟩

def settingBody : List (Stmt RefId) :=
  [.expression (.assign 0 ⟨.identifier, "n", 1, 32⟩ (.literal (.bool true)))]

def makingFunction : Closure :=
  ⟨0, ⟨.identifier, "make", 1, 4⟩, [],
    [.var ⟨.identifier, "n", 1, 17⟩ none, .function ⟨.identifier, "set", 1, 24⟩ [] settingBody], 0⟩

def makingCall (ref : RefId) (offset : Nat) : Expr RefId :=
  .call (.var ref ⟨.identifier, "make", 1, offset⟩) ⟨.punct .rightParen, ")", 1, offset + 5⟩ []

def makingProgram : List (Stmt RefId) :=
  [.function makingFunction.name [] makingFunction.body, .expression (makingCall 1 46),
    .expression (makingCall 2 54)]

/-- The machine on which that run begins. -/
def makingMachine : Machine :=
  { Machine.start (fun _ => 0) with distances := (∅ : Distances).insert 0 1 }

theorem distances_makingRun :
    ((start fun _ => 0).analysis makingRun.source).findings.distances = [(0, 1)] := by
  cbv

/-- The program is run from its beginning. -/
theorem visits_makingRun : Visits [makingRun] ⟨20, .run makingProgram, makingMachine⟩ := by
  have haccepted : ((start fun _ => 0).analysis makingRun.source).faults = [] := by
    decide +kernel
  have hprogram : ((start fun _ => 0).analysis makingRun.source).program = makingProgram := by
    cbv
  have hopening : (start fun _ => 0).opening makingRun = makingMachine := by
    rw [opening, Machine.learn, distances_makingRun]
    rfl
  exact hprogram ▸ hopening ▸ .first rfl haccepted

/-- The machine behind the first statement of that run and so many calls. -/
def makingMachineAfter : Nat → Machine
  | 0 => (execute 20 (.function makingFunction.name [] makingFunction.body)).after makingMachine
  | calls + 1 =>
    (call 18 (.function makingFunction) [] makingFunction.name).after (makingMachineAfter calls)

/-- The function that a call makes on this machine. -/
def settingFunction (m : Machine) : Closure :=
  ⟨m.functions, ⟨.identifier, "set", 1, 24⟩, [], settingBody, m.store.next⟩

/-- The name of the maker is looked up in the globals and found there. -/
theorem evaluate_making (m : Machine) (ref : RefId) (hentry : m.distances[ref]? = none)
    (hroot : m.store.parent? m.globals = none) (hlt : m.globals < m.store.next)
    (hread : m.store.read? m.globals "make" = some (.function makingFunction)) (offset : Nat) :
    evaluate 18 (.var ref ⟨.identifier, "make", 1, offset⟩) m =
      .ok (.function makingFunction) m := by
  change Step.lookUp _ _ m = _
  rw [Step.lookUp_of_none hentry, Store.get?_of_root hroot hlt, hread]
  rfl

/-- A call of the maker makes one function. -/
theorem execute_makingCall {m m' : Machine} {ref : RefId} {offset : Nat}
    (hcallee : evaluate 18 (.var ref ⟨.identifier, "make", 1, offset⟩) m =
      .ok (.function makingFunction) m)
    (hcall : call 18 (.function makingFunction) [] ⟨.punct .rightParen, ")", 1, offset + 5⟩ m =
      .ok .nil m') : execute 20 (.expression (makingCall ref offset)) m = .ok .normal m' := by
  have hevaluate : evaluate 19 (makingCall ref offset) m = .ok .nil m' :=
    (Step.bind_of_ok hcallee).trans hcall
  exact Step.bind_of_ok hevaluate

/-- The function is made in the call that the statement enters. -/
theorem madeIn_making {m : Machine} {ref : RefId} {offset : Nat} {rest : List (Stmt RefId)}
    (hvisits : Visits [makingRun] ⟨20, .run (.expression (makingCall ref offset) :: rest), m⟩)
    (hcallee : evaluate 18 (.var ref ⟨.identifier, "make", 1, offset⟩) m =
      .ok (.function makingFunction) m) (hdepth : m.callDepth < maxCallDepth) :
    MadeIn [makingRun] makingFunction m.store.next (settingFunction m) := by
  have hcall := ((hvisits.enters .firstRun).enters .expression).enters (.applied hcallee rfl rfl)
  refine ⟨_, _, _, _, _, ⟨_, List.suffix_refl _, hcall⟩, rfl, .called hdepth, rfl,
    (Point.Contains.refl.enters (.otherInOrder rfl) rfl).enters .firstInOrder rfl, ?_⟩
  exact .mk

/-- The statement in the body of the function that is made calls nothing. -/
theorem not_invokes_setting {n : Nat} {m m' : Machine} {k : Closure} :
    ¬ Point.Invokes ⟨n, .inOrder settingBody, m⟩ k m' := by
  rintro ⟨calls, n', arguments, paren, hreaches, -⟩
  generalize hq : (⟨n' + 1, .call (.function k) arguments paren, m'⟩ : Point) = q at hreaches
  have htask : q.task = .inOrder settingBody ∨ q.task = .inOrder [] ∨
      (∃ s ∈ settingBody, q.task = .execute s) ∨
      q.task = .evaluate (.assign 0 ⟨.identifier, "n", 1, 32⟩ (.literal (.bool true))) ∨
      q.task = .evaluate (.literal (.bool true)) := by
    clear hq
    induction hreaches with
    | refl => exact .inl rfl
    | @enters calls q r _ henters ih =>
      obtain ⟨fuel, task, m₁⟩ := q
      rcases ih with rfl | rfl | ⟨s, hs, rfl⟩ | rfl | rfl
      · cases henters <;> simp [settingBody]
      · cases henters
      · obtain rfl := List.mem_singleton.mp hs
        cases henters
        simp
      · cases henters
        simp
      · cases henters
  subst hq
  simp at htask

/-- Two functions of one maker, of which the first sets its own variable and not that of the
    second. -/
theorem closures_independent_in_making :
    (∃ q, Point.Enters ⟨18, .call (.function makingFunction) [] makingFunction.name,
        makingMachineAfter 0⟩ q ∧
      (makingMachineAfter 0).store.frame? q.machine.environment = none) ∧
    (∃ q m α, ∃ step : Step α, Point.Acts q m step ∧ step.Changes m 0 "make" ∧
      m.store.OnChain m.environment 0) ∧
    ∃ p calls, Visited [makingRun] p ∧
      ((settingFunction (makingMachineAfter 0)).afterCalls p.machine calls).store.read? 1 "n" =
        some (.bool true) ∧
      ((settingFunction (makingMachineAfter 0)).afterCalls p.machine calls).store.read? 2 "n" =
        p.machine.store.read? 2 "n" := by
  obtain ⟨hopens, hchanges, hindependent⟩ := closures_independent
  have hmake : execute 20 (.function makingFunction.name [] makingFunction.body) makingMachine =
      .ok .normal (makingMachineAfter 0) := rfl
  have hfirst := visits_makingRun.enters (.otherRun hmake)
  have hcallee :=
    evaluate_making (makingMachineAfter 0) 1 (by decide +kernel) rfl (by decide) rfl 46
  have hcall : execute 20 (.expression (makingCall 1 46)) (makingMachineAfter 0) =
      .ok .normal (makingMachineAfter 1) := execute_makingCall hcallee rfl
  have hsecond := hfirst.enters (.otherRun hcall)
  have hcallee' :=
    evaluate_making (makingMachineAfter 1) 2 (by decide +kernel) rfl (by decide) rfl 54
  have hcall' : execute 20 (.expression (makingCall 2 54)) (makingMachineAfter 1) =
      .ok .normal (makingMachineAfter 2) := execute_makingCall hcallee' rfl
  have hlast := hsecond.enters (.otherRun hcall')
  refine ⟨?_, ?_, _, [⟨5, [], makingFunction.name⟩], ⟨_, List.suffix_refl _, hlast⟩, rfl, ?_⟩
  · have hdepth : (makingMachineAfter 0).callDepth < maxCallDepth := by decide
    obtain ⟨q, hq, -, hfresh, -⟩ := hopens _ _ (.function hdepth)
    exact ⟨q, hq, hfresh⟩
  · have hdeclared : ((execute 20 (.function makingFunction.name [] makingFunction.body)).after
        makingMachine).store.read? 0 "make" = some (.function makingFunction) := rfl
    have hnew : makingMachine.store.read? 0 "make" = none := rfl
    have hread := (hchanges _ _ 0 "make" (visits_makingRun.enters .firstRun)).2 (by decide)
      (ne_of_eq_of_ne hdeclared (hnew ▸ nofun))
    obtain ⟨-, q, m, α, step, -, hacts, hstep, hchain⟩ := hread
    exact ⟨q, m, α, step, hacts, hstep, hchain⟩
  · have hmade := madeIn_making hfirst hcallee (by decide)
    have hmade' := madeIn_making hsecond hcallee' (by decide)
    have hcalls : (settingFunction (makingMachineAfter 0)).CallsAvoid 2 (makingMachineAfter 2)
        [⟨5, [], makingFunction.name⟩] := by
      refine ⟨fun body k m' henters hinvokes => ?_, trivial⟩
      cases henters
      exact absurd hinvokes not_invokes_setting
    exact hindependent _ _ _ _ _ _ _ hmade hmade' ⟨rfl, rfl, rfl⟩ (by decide) _ _
      ⟨_, List.suffix_refl _, hlast⟩ (by decide) hcalls "n"

end Session

end Lox

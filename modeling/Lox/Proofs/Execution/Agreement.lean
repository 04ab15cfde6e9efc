import Lox.Proofs.Execution.Point
import Lox.Proofs.Scoping.Proper
import Lox.Proofs.Scoping.Settled

/-!
Frames and scopes agree. While a task is carried out, the chain of frames from the current one
mirrors the scopes around the text of the task: link by link, each frame was made for the region
that opened the scope, and it binds whatever the scope has defined so far. The frame in front binds
nothing else. A function keeps the frame of its declaration, and with it the agreement.
-/

namespace Lox

/-- What is known about a run: the points it has visited, with every point that these enter, and
    the places of its sources, at which scoping has found no fault. -/
structure Survey where
  visited : Point → Prop
  place : Place → Prop
  enters : ∀ {p q}, visited p → p.Enters q → visited q
  faultless : ∀ {p}, place p → p.findings.errors = []

namespace Survey

variable (S : Survey)

/-- The frame was made where the region was entered. -/
def Made (region : Region) (f : FrameId) : Prop :=
  ∃ p, S.visited p ∧ p.Opens region ∧ p.machine.store.next = f

/-- The frames from `f` on up to the globals mirror these scopes. -/
def Realizes (s : Store) (globals : FrameId) : FrameId → Nest → Prop
  | f, [] => f = globals
  | f, (region, scope) :: outer =>
    S.Made region f ∧ (∀ name, (name, true) ∈ scope → s.binds f name) ∧
      ∃ parent, s.parent? f = some parent ∧ Realizes s globals parent outer

/-- The frames from the current one on mirror these scopes, and it binds only what is defined. -/
structure Stands (m : Machine) (nest : Nest) : Prop where
  realizes : S.Realizes m.store m.globals m.environment nest
  defined : ∀ r ∈ nest.head?, ∀ name, m.store.binds m.environment name → (name, true) ∈ r.2

/-- The places of statements in a row are known, and no declaration stands alone. -/
def Covers (nest : Nest) (body : List (Stmt RefId)) : Prop :=
  (∀ p ∈ (Stmt.placesAll nest body).1, S.place p) ∧ Stmt.ProperAll body

/-- A function keeps a frame that mirrors the scopes around its declaration. -/
def Rooted (m : Machine) : Value → Prop
  | .function f => ∃ nest : Nest, S.Realizes m.store m.globals f.frame nest ∧ nest.Settled ∧
      S.Covers ((.function f.parameters f.body, Scope.ofParameters f.parameters) :: nest) f.body
  | _ => True

/-- What holds of the machine at every point. -/
structure Consistent (m : Machine) : Prop where
  globals_lt : m.globals < m.store.next
  parent?_globals : m.store.parent? m.globals = none
  rooted : ∀ f name value, m.store.read? f name = some value → S.Rooted m value
  distances : ∀ p, S.place p → ∀ r ∈ p.expression.references,
    m.distances[r.1]? = Scope.distance? p.nest.scopes r.2

/-- The references of a part of an expression that stands at a known place. -/
structure Within (nest : Nest) (m : Machine) (found : Findings)
    (references : List (RefId × Token)) : Prop where
  stands : S.Stands m nest
  settled : Nest.Settled nest.tail
  faultless : found.errors = []
  place : ∃ whole, S.place ⟨nest, whole⟩ ∧ references ⊆ whole.references

/-- What a task needs of the machine, and of the scopes around its text. -/
def Placed (nest : Nest) (m : Machine) : Task → Prop
  | .evaluate e => S.Within nest m (e.findings nest.scopes) e.references
  | .values es => S.Within nest m (Expr.findingsAll nest.scopes es) (Expr.referencesAll es)
  | .call (.function f) arguments _ =>
    S.Rooted m (.function f) ∧ (∀ value ∈ arguments, S.Rooted m value) ∧
      arguments.length = f.parameters.length
  | .call (.native _) arguments _ => ∀ value ∈ arguments, S.Rooted m value
  | .execute s =>
    S.Stands m nest ∧ nest.Settled ∧ (∀ p ∈ (s.places nest).1, S.place p) ∧ s.Proper
  | .loop e s =>
    S.Stands m nest ∧ nest.Settled ∧ S.place ⟨nest, e⟩ ∧ (∀ p ∈ (s.places nest).1, S.place p) ∧
      s.Proper ∧ s.declares = false
  | .inOrder body => S.Stands m nest ∧ nest.Settled ∧ S.Covers nest body
  | .run program => nest = [] ∧ S.Stands m [] ∧ S.Covers [] program

structure Ready (nest : Nest) (p : Point) : Prop where
  visited : S.visited p
  consistent : S.Consistent p.machine
  placed : S.Placed nest p.machine p.task

variable {S} {declaring : Bool} {m m' : Machine} {nest : Nest} {f : FrameId}

/-- A frame that mirrors a scope is there. -/
theorem Realizes.lt_next (h : S.Realizes m.store m.globals f nest) (hm : S.Consistent m) :
    f < m.store.next := by
  cases nest with
  | nil =>
    rw [Realizes] at h
    exact h ▸ hm.globals_lt
  | cons r outer =>
    obtain ⟨-, -, parent, hparent, -⟩ := h
    exact Store.lt_next_of_parent? hparent

/-- A nest that is realized stays so however far the run comes, as frames do not move. -/
theorem Realizes.evolve (h : S.Realizes m.store m.globals f nest) (hm : m.Evolves declaring m') :
    S.Realizes m'.store m'.globals f nest := by
  induction nest generalizing f with
  | nil => exact Eq.trans h hm.globals.symm
  | cons r outer ih =>
    obtain ⟨hmade, hbinds, parent, hparent, houter⟩ := h
    refine ⟨hmade, fun name hname => hm.binds f name (hbinds name hname), parent, ?_, ih houter⟩
    rw [hm.parent? f (Store.lt_next_of_parent? hparent), hparent]

/-- The place of a task stays known while expressions are evaluated. -/
theorem Stands.evolve (h : S.Stands m nest) (hm : S.Consistent m) (hevolves : m.Evolves false m') :
    S.Stands m' nest := by
  refine ⟨?_, fun r hr name hbinds => h.defined r hr name ?_⟩
  · rw [hevolves.environment]
    exact h.realizes.evolve hevolves
  · rw [hevolves.environment, hevolves.names _ (h.realizes.lt_next hm) (by simp)] at hbinds
    exact hbinds

/-- A function keeps the frames around it. -/
theorem Rooted.evolve {value : Value} (h : S.Rooted m value) (hm : m.Evolves declaring m') :
    S.Rooted m' value := by
  cases value with
  | function f =>
    obtain ⟨nest, hrealizes, hbody⟩ := h
    exact ⟨nest, hrealizes.evolve hm, hbody⟩
  | _ => trivial

/-- Frames and scopes agree as long as every value that is stored anew was made in frames that
    agree. -/
theorem Consistent.evolve (h : S.Consistent m) (hevolves : m.Evolves declaring m')
    (hrooted : ∀ f name value, m'.store.read? f name = some value →
      m.store.read? f name = some value ∨ S.Rooted m' value) : S.Consistent m' where
  globals_lt := by
    rw [hevolves.globals]
    exact Nat.lt_of_lt_of_le h.globals_lt hevolves.next_le
  parent?_globals := by
    rw [hevolves.globals, hevolves.parent? _ h.globals_lt]
    exact h.parent?_globals
  rooted f name value hread :=
    (hrooted f name value hread).elim (fun hold => (h.rooted f name value hold).evolve hevolves) id
  distances := by
    rw [hevolves.distances]
    exact h.distances

theorem Within.evolve {found : Findings} {references : List (RefId × Token)}
    (h : S.Within nest m found references) (hm : S.Consistent m) (hevolves : m.Evolves false m') :
    S.Within nest m' found references :=
  ⟨h.stands.evolve hm hevolves, h.settled, h.faultless, h.place⟩

/-- A part of an expression has some of its references and none of its own faults. -/
theorem Within.part {found part : Findings} {references references' : List (RefId × Token)}
    (h : S.Within nest m found references) (hfound : part.errors ⊆ found.errors)
    (hreferences : references' ⊆ references) : S.Within nest m part references' := by
  obtain ⟨whole, hplace, hwhole⟩ := h.place
  refine ⟨h.stands, h.settled, ?_, whole, hplace, fun r hr => hwhole (hreferences hr)⟩
  have hfaultless := h.faultless
  rw [hfaultless] at hfound
  exact List.subset_nil.mp hfound

section Frames

variable {enclosing : FrameId} {bindings : List (String × Value)} {region : Region} {scope : Scope}
  {name : Token} {value : Value}

/-- Only the store and the globals matter. -/
theorem Rooted.of_eq (h : S.Rooted m value) (hstore : m'.store = m.store)
    (hglobals : m'.globals = m.globals) : S.Rooted m' value := by
  cases value with
  | function f =>
    rw [Rooted, hstore, hglobals]
    exact h
  | _ => trivial

/-- Only frames and distances matter, and not which frame is the current one. -/
theorem Consistent.of_eq (h : S.Consistent m) (hstore : m'.store = m.store)
    (hglobals : m'.globals = m.globals) (hdistances : m'.distances = m.distances) :
    S.Consistent m' where
  globals_lt := by
    rw [hstore, hglobals]
    exact h.globals_lt
  parent?_globals := by
    rw [hstore, hglobals]
    exact h.parent?_globals
  rooted f name value hread := by
    rw [hstore] at hread
    exact (h.rooted f name value hread).of_eq hstore hglobals
  distances := by
    rw [hdistances]
    exact h.distances

theorem entered_evolves (m : Machine) (enclosing : FrameId) (bindings : List (String × Value)) :
    m.Evolves false { m.entered enclosing bindings with environment := m.environment } :=
  (Machine.Evolves.refl (m.entered enclosing bindings)).leave

/-- A new frame that binds known values breaks nothing. -/
theorem Consistent.entered (h : S.Consistent m) (hbindings : ∀ b ∈ bindings, S.Rooted m b.2) :
    S.Consistent (m.entered enclosing bindings) := by
  have hevolves := entered_evolves m enclosing bindings
  refine (h.evolve hevolves fun f name value hread => ?_).of_eq rfl rfl rfl
  have hpush := Store.read?_push.symm.trans hread
  split at hpush
  · rcases Frame.get?_foldl_define hpush with ⟨b, hb, rfl⟩ | hempty
    · exact .inr ((hbindings b hb).evolve hevolves)
    · simp [Frame.empty, Frame.get?] at hempty
  · exact .inl hpush

/-- A new frame mirrors a new scope if it binds just the names that are defined there. -/
theorem Stands.entered (hrealizes : S.Realizes m.store m.globals enclosing nest)
    (hmade : S.Made region m.store.next)
    (hscope : ∀ n, (n, true) ∈ scope ↔ ∃ b ∈ bindings, b.1 = n) :
    S.Stands (m.entered enclosing bindings) ((region, scope) :: nest) := by
  have hbinds (n : String) : (m.entered enclosing bindings).store.binds m.store.next n ↔
      (n, true) ∈ scope := by
    rw [hscope, Machine.entered, Store.binds_push_next, Frame.binds_foldl_define]
    simp [Frame.binds, Frame.empty]
  refine ⟨⟨hmade, fun n hn => (hbinds n).mpr hn, enclosing, ?_, ?_⟩, fun r hr n hn => ?_⟩
  · rw [Machine.entered, Store.parent?_push_next, Frame.enclosing_foldl_define]
    rfl
  · have houter := hrealizes.evolve (entered_evolves m enclosing bindings)
    exact houter
  · obtain rfl := Option.some.inj hr
    exact (hbinds n).mp hn

/-- A name that is declared but not yet defined needs no binding. -/
theorem Stands.declare (h : S.Stands m nest) (name : Token) :
    S.Stands m (nest.record name false) := by
  obtain ⟨hrealizes, hdefined⟩ := h
  cases nest with
  | nil => exact ⟨hrealizes, hdefined⟩
  | cons r outer =>
    obtain ⟨hmade, hbinds, hparent⟩ := hrealizes
    refine ⟨⟨hmade, fun n hn => hbinds n (by simpa using hn), hparent⟩, fun r' hr' n hn => ?_⟩
    obtain rfl := Option.some.inj hr'
    exact List.mem_cons_of_mem _ (hdefined r rfl n hn)

/-- Behind a definition the scope and the frame have the same further name. -/
theorem Stands.define (h : S.Stands m nest) (hm : S.Consistent m) (name : Token) (value : Value) :
    S.Stands { m with store := m.store.define m.environment name.lexeme value }
      (nest.record name true) := by
  have hevolves := Machine.Evolves.define m name.lexeme value
  have hrealizes := h.realizes.evolve hevolves
  have hlt := h.realizes.lt_next hm
  cases nest with
  | nil => exact ⟨hrealizes, by simp [Nest.record]⟩
  | cons r outer =>
    obtain ⟨hmade, hbinds, hparent⟩ := hrealizes
    refine ⟨⟨hmade, fun n hn => ?_, hparent⟩, fun r' hr' n hn => ?_⟩
    · rcases List.mem_cons.mp hn with heq | hn
      · obtain ⟨rfl, -⟩ := Prod.mk.inj heq
        have hframe : (m.store.frame? m.environment).isSome := by
          rw [Option.isSome_iff_exists]
          exact ⟨_, Array.getElem?_eq_getElem hlt⟩
        simp [Store.binds_define, hframe]
      · exact hbinds n hn
    · obtain rfl := Option.some.inj hr'
      rw [Store.binds_define, Bool.or_eq_true] at hn
      rcases hn with hold | hnew
      · exact List.mem_cons_of_mem _ (h.defined r rfl n hold)
      · simp only [Bool.and_eq_true, beq_iff_eq] at hnew
        obtain ⟨⟨-, rfl⟩, -⟩ := hnew
        exact List.mem_cons_self

/-- A definition stores one value more. -/
theorem Consistent.define (h : S.Consistent m)
    (hvalue : S.Rooted { m with store := m.store.define m.environment name.lexeme value } value) :
    S.Consistent { m with store := m.store.define m.environment name.lexeme value } := by
  refine h.evolve (.define m name.lexeme value) fun f n found hread => ?_
  rcases Store.read?_define hread with rfl | hold
  · exact .inr hvalue
  · exact .inl hold

/-- A write replaces one value. -/
theorem Consistent.write (h : S.Consistent m) (hvalue : S.Rooted m value) (f : FrameId)
    (n : String) : S.Consistent { m with store := (m.store.write f n value).2 } := by
  have hevolves : m.Evolves false _ := .write m f n value
  refine h.evolve hevolves fun g other found hread => ?_
  rcases Store.read?_write hread with rfl | hold
  · exact .inr (hvalue.evolve hevolves)
  · exact .inl hold

end Frames

/-- The references at a place have the distances that scoping found. -/
theorem Within.of_place (hstands : S.Stands m nest) (hsettled : nest.Settled) {e : Expr RefId}
    (hplace : S.place ⟨nest, e⟩) : S.Within nest m (e.findings nest.scopes) e.references :=
  ⟨hstands, hsettled.tail, S.faultless hplace, e, hplace, List.Subset.refl _⟩

end Survey

/-- A call binds the parameters of the function, and nothing else. -/
theorem Closure.exists_mem_bindings {f : Closure} {arguments : List Value} {name : String}
    (h : arguments.length = f.parameters.length) :
    (∃ b ∈ f.bindings arguments, b.1 = name) ↔ ∃ p ∈ f.parameters, p.lexeme = name := by
  have hnames : (f.bindings arguments).map Prod.fst = f.parameters.map (·.lexeme) :=
    List.map_fst_zip (by simp [h])
  rw [← List.mem_map (f := Prod.fst), hnames, List.mem_map]

end Lox

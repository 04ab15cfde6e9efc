import Lox.Proofs.Scoping.Path

/-!
The walk of scoping, node by node. It comes to every node once, in the order of paths, with the
scopes that are open there and with whether a function lies around the node; all that it finds, it
finds at single nodes.
-/

namespace Lox

/-- What a statement declares does not depend on whether a function lies around it. -/
theorem Stmt.findings_snd_eq (b b' : Bool) (scopes : List Scope) (s : Stmt RefId) :
    (s.findings b scopes).2 = (s.findings b' scopes).2 := by
  have hnest : scopes = Nest.scopes (scopes.map fun scope => (.block [], scope)) := by
    simp [Nest.scopes, Function.comp_def]
  rw [hnest, (Stmt.findings_places b _ s).1, (Stmt.findings_places b' _ s).1]

theorem Findings.append_eq (f g : Findings) :
    f ++ g = ⟨f.distances ++ g.distances, f.errors ++ g.errors⟩ := rfl

theorem Scope.ofReference_eq (scopes : List Scope) (ref : RefId) (name : Token) :
    Scope.ofReference scopes ref name = ⟨(Scope.entry? scopes (ref, name)).toList, []⟩ := by
  rw [Scope.ofReference, Scope.entry?]
  cases Scope.distance? scopes name <;> rfl

namespace Node

/-- What scoping finds in a node. -/
def findings (inFunction : Bool) (scopes : List Scope) : Node → Findings
  | program statements => (Stmt.findingsAll inFunction scopes statements).1
  | statement s => (s.findings inFunction scopes).1
  | expression e => e.findings scopes

def references : Node → List (RefId × Token)
  | program statements => Stmt.referencesAll statements
  | statement s => s.references
  | expression e => e.references

/-- The scopes for the first part of a node. -/
def enter (scopes : List Scope) : Node → List Scope
  | statement (.block _) => [] :: scopes
  | statement (.function name parameters _) =>
    Scope.ofParameters parameters :: Scope.record name true scopes
  | statement (.var name (some _)) => Scope.record name false scopes
  | _ => scopes

/-- The scopes behind a node, with what it declares. -/
def leave (scopes : List Scope) : Node → List Scope
  | program statements => (Stmt.findingsAll false scopes statements).2
  | statement s => (s.findings false scopes).2
  | expression _ => scopes

/-- The scopes behind some nodes. -/
def leaveAll (scopes : List Scope) (nodes : List Node) : List Scope :=
  nodes.foldl (fun scopes n => n.leave scopes) scopes

/-- What scoping finds in nodes that stand one behind the other. -/
def walk (inFunction : Bool) (scopes : List Scope) : List Node → Findings
  | [] => .none
  | n :: rest => n.findings inFunction scopes ++ walk inFunction (n.leave scopes) rest

/-- What is reported at the node itself, not below it. -/
def error? (inFunction : Bool) (scopes : List Scope) : Node → Option ScopeError
  | expression (.var _ name) =>
    if Scope.isPending scopes name then some ⟨name, .readInInitializer⟩ else none
  | statement (.return keyword _) =>
    if inFunction then none else some ⟨keyword, .returnOutsideFunction⟩
  | _ => none

/-- The entry for the node itself. -/
def entry? (scopes : List Scope) (n : Node) : Option (RefId × Nat) :=
  n.reference?.bind (Scope.entry? scopes)

variable {n c : Node} {inFunction : Bool} {scopes : List Scope}

/-- Walking expressions as nodes is scoping them as a list. -/
theorem walk_expressions (es : List (Expr RefId)) :
    walk inFunction scopes (es.map expression) = Expr.findingsAll scopes es := by
  induction es with
  | nil => rfl
  | cons e es ih => exact congrArg (e.findings scopes ++ ·) ih

/-- Walking statements as nodes is scoping them as a list. -/
theorem walk_statements (ss : List (Stmt RefId)) :
    walk inFunction scopes (ss.map statement) = (Stmt.findingsAll inFunction scopes ss).1 := by
  induction ss generalizing scopes with
  | nil => rfl
  | cons s ss ih =>
    rw [List.map_cons, walk, ih, Stmt.findingsAll, leave, Stmt.findings_snd_eq false inFunction]
    rfl

theorem flatMap_references_expressions (es : List (Expr RefId)) :
    (es.map expression).flatMap references = Expr.referencesAll es := by
  induction es with
  | nil => rfl
  | cons e es ih => exact congrArg (e.references ++ ·) ih

theorem flatMap_references_statements (ss : List (Stmt RefId)) :
    (ss.map statement).flatMap references = Stmt.referencesAll ss := by
  induction ss with
  | nil => rfl
  | cons s ss ih => exact congrArg (s.references ++ ·) ih

/-- A node reports before its parts do, and has its entry behind theirs. -/
theorem findings_eq (n : Node) :
    n.findings inFunction scopes =
      ⟨[], (n.error? inFunction scopes).toList⟩ ++
        walk (inFunction || n.isFunction) (n.enter scopes) n.parts ++
          ⟨(n.entry? scopes).toList, []⟩ := by
  cases n with
  | program ss =>
    simp [findings, error?, entry?, reference?, parts, isFunction, enter, walk_statements,
      Findings.append_eq]
  | statement s =>
    cases s with
    | expression | print | «while» =>
      simp [findings, Stmt.findings, error?, entry?, reference?, parts, isFunction, enter, leave,
        walk, Findings.append_eq, Findings.none]
    | var name initializer =>
      cases initializer <;>
        simp [findings, Stmt.findings, error?, entry?, reference?, parts, isFunction, enter, walk,
          Findings.append_eq, Findings.none]
    | block body | function name parameters body =>
      simp [findings, Stmt.findings, error?, entry?, reference?, parts, isFunction, enter,
        walk_statements, Findings.append_eq]
    | «if» condition thenBranch elseBranch =>
      cases elseBranch <;>
        simp [findings, Stmt.findings, error?, entry?, reference?, parts, isFunction, enter, leave,
          walk, Stmt.findings_snd_eq false inFunction, Findings.append_eq, Findings.none]
    | «return» name value =>
      cases value <;> cases inFunction <;>
        simp [findings, Stmt.findings, error?, entry?, reference?, parts, isFunction, enter, walk,
          Findings.ofReturn, Findings.append_eq, Findings.none]
  | expression e =>
    cases e with
    | call callee paren arguments =>
      simp [findings, Expr.findings, error?, entry?, reference?, parts, isFunction, enter, leave,
        walk, walk_expressions, Findings.append_eq]
    | var ref name =>
      cases hpending : Scope.isPending scopes name <;>
        simp [findings, Expr.findings, error?, entry?, reference?, parts, walk, hpending,
          Scope.ofReference_eq, Findings.append_eq, Findings.none]
    | _ =>
      simp [findings, Expr.findings, error?, entry?, reference?, parts, isFunction, enter, leave,
        walk, Scope.ofReference_eq, Findings.append_eq, Findings.none]

/-- The references of a node are those of its parts, and its own where it has one. -/
theorem references_eq (n : Node) :
    n.references = n.parts.flatMap references ++ n.reference?.toList := by
  cases n with
  | program ss => simp [references, parts, reference?, flatMap_references_statements]
  | statement s =>
    cases s with
    | expression | print | «while» => simp [references, Stmt.references, parts, reference?]
    | var name initializer | «return» name initializer =>
      cases initializer <;> simp [references, Stmt.references, parts, reference?]
    | block body | function name parameters body =>
      simp [references, Stmt.references, parts, reference?, flatMap_references_statements]
    | «if» condition thenBranch elseBranch =>
      cases elseBranch <;> simp [references, Stmt.references, parts, reference?]
  | expression e =>
    cases e with
    | call callee paren arguments =>
      simp [references, Expr.references, parts, reference?, flatMap_references_expressions]
    | _ => simp [references, Expr.references, parts, reference?]

end Node

/-- A node to which the walk comes: where it stands, the scopes that are open there, and whether a
    function lies around it. -/
structure Visit where
  path : Path
  node : Node
  scopes : List Scope
  inFunction : Bool

namespace Visit

/-- A visit in a part of a node, as a visit in the node. -/
def inPart (i : Nat) (v : Visit) : Visit :=
  { v with path := i :: v.path }

def error? (v : Visit) : Option ScopeError :=
  v.node.error? v.inFunction v.scopes

def entry? (v : Visit) : Option (RefId × Nat) :=
  v.node.entry? v.scopes

end Visit

/-- The walk over a node makes a visit. -/
inductive Node.Visits : Node → Bool → List Scope → Visit → Prop
  | here {n inFunction scopes} : Visits n inFunction scopes ⟨[], n, scopes, inFunction⟩
  | part {n c : Node} {inFunction scopes i v} (hc : n.parts[i]? = some c)
      (h : c.Visits (inFunction || n.isFunction) (leaveAll (n.enter scopes) (n.parts.take i)) v) :
      Visits n inFunction scopes (v.inPart i)

/-- All visits of a walk, in order, and what they found. A node has its entry behind its parts,
    which come later, so the entries are these in another order. -/
structure Tour (visited : Visit → Prop) (found : Findings) (references : List (RefId × Token))
    (visits : List Visit) : Prop where
  mem_iff : ∀ v, v ∈ visits ↔ visited v
  sorted : visits.Pairwise (·.path < ·.path)
  errors : found.errors = visits.filterMap Visit.error?
  distances : found.distances.Perm (visits.filterMap Visit.entry?)
  references : references.Perm (visits.filterMap (·.node.reference?))

namespace Tour

variable {visited visited' : Visit → Prop} {found found' : Findings}
  {refs refs' : List (RefId × Token)} {visits visits' : List Visit}

theorem nil (h : ∀ v, ¬ visited v) : Tour visited .none [] [] where
  mem_iff v := by simp [h v]
  sorted := .nil
  errors := rfl
  distances := .nil
  references := .nil

/-- A tour of a part is a tour of the node, below the index of the part. -/
theorem inPart (h : Tour visited found refs visits) (i : Nat) :
    Tour (fun v => ∃ w, visited w ∧ v = w.inPart i) found refs (visits.map (Visit.inPart i)) where
  mem_iff v := by
    simp only [List.mem_map, h.mem_iff, eq_comm]
  sorted := by
    rw [List.pairwise_map]
    exact h.sorted.imp fun hlt => List.cons_lt_cons_iff.mpr (.inr ⟨rfl, hlt⟩)
  errors := by
    rw [List.filterMap_map]
    exact h.errors
  distances := by
    rw [List.filterMap_map]
    exact h.distances
  references := by
    rw [List.filterMap_map]
    exact h.references

/-- Two tours make one where every visit of the first comes before all of the second. -/
theorem append (h : Tour visited found refs visits) (h' : Tour visited' found' refs' visits')
    (hlt : ∀ v w, visited v → visited' w → v.path < w.path) :
    Tour (fun v => visited v ∨ visited' v) (found ++ found') (refs ++ refs')
      (visits ++ visits') where
  mem_iff v := by
    rw [List.mem_append, h.mem_iff, h'.mem_iff]
  sorted := List.pairwise_append.mpr ⟨h.sorted, h'.sorted, fun v hv w hw =>
    hlt v w ((h.mem_iff v).mp hv) ((h'.mem_iff w).mp hw)⟩
  errors := by
    rw [Findings.errors_append, List.filterMap_append, h.errors, h'.errors]
  distances := by
    rw [Findings.distances_append, List.filterMap_append]
    exact h.distances.append h'.distances
  references := by
    rw [List.filterMap_append]
    exact h.references.append h'.references

theorem congr (h : Tour visited found refs visits) (hiff : ∀ v, visited' v ↔ visited v) :
    Tour visited' found refs visits :=
  { h with mem_iff := fun v => (h.mem_iff v).trans (hiff v).symm }

end Tour

namespace Node

/-- A walk over nodes, each of which has a tour. The nodes are parts from `k` on of one node. -/
theorem exists_tour_walk (nodes : List Node)
    (h : ∀ n ∈ nodes, ∀ inFunction scopes,
      ∃ visits,
        Tour (n.Visits inFunction scopes) (n.findings inFunction scopes) n.references visits)
    (k : Nat) (inFunction : Bool) (scopes : List Scope) :
    ∃ visits,
      Tour (fun v => ∃ (i : Nat) (c : Node) (w : Visit), nodes[i]? = some c ∧
          c.Visits inFunction (leaveAll scopes (nodes.take i)) w ∧ v = w.inPart (k + i))
        (walk inFunction scopes nodes) (nodes.flatMap references) visits := by
  induction nodes generalizing k scopes with
  | nil => exact ⟨[], .nil (by simp)⟩
  | cons n rest ih =>
    obtain ⟨hn, hrest⟩ := List.forall_mem_cons.mp h
    obtain ⟨first, hfirst⟩ := hn inFunction scopes
    obtain ⟨later, hlater⟩ := ih hrest (k + 1) (n.leave scopes)
    refine ⟨_, ((hfirst.inPart k).append hlater ?_).congr fun v => ⟨?_, ?_⟩⟩
    · rintro v w ⟨v, -, rfl⟩ ⟨i, c, w, -, -, rfl⟩
      exact List.cons_lt_cons_iff.mpr (.inl (by omega))
    · rintro ⟨i, c, w, hc, hw, rfl⟩
      cases i with
      | zero =>
        obtain rfl := Option.some.inj hc
        exact .inl ⟨w, hw, rfl⟩
      | succ i => exact .inr ⟨i, c, w, hc, hw, by rw [Nat.add_right_comm, Nat.add_assoc]⟩
    · rintro (⟨w, hw, rfl⟩ | ⟨i, c, w, hc, hw, rfl⟩)
      · exact ⟨0, n, w, rfl, hw, rfl⟩
      · exact ⟨i + 1, c, w, hc, hw, by rw [Nat.add_right_comm, Nat.add_assoc]⟩

/-- The walk over a node is a tour of all that is below it. -/
theorem exists_tour (n : Node) (inFunction : Bool) (scopes : List Scope) :
    ∃ visits,
      Tour (n.Visits inFunction scopes) (n.findings inFunction scopes) n.references visits := by
  obtain ⟨visits, h⟩ := exists_tour_walk n.parts (fun c hc => exists_tour c) 0
    (inFunction || n.isFunction) (n.enter scopes)
  refine ⟨⟨[], n, scopes, inFunction⟩ :: visits, ?_, ?_, ?_, ?_, ?_⟩
  · intro v
    rw [List.mem_cons, h.mem_iff]
    constructor
    · rintro (rfl | ⟨i, c, w, hc, hw, rfl⟩)
      · exact .here
      · rw [Nat.zero_add]
        exact .part hc hw
    · rintro (_ | ⟨hc, hw⟩)
      · exact .inl rfl
      · exact .inr ⟨_, _, _, hc, hw, by rw [Nat.zero_add]⟩
  · refine List.pairwise_cons.mpr ⟨fun v hv => ?_, h.sorted⟩
    obtain ⟨i, c, w, -, -, rfl⟩ := (h.mem_iff v).mp hv
    exact List.nil_lt_cons _ _
  · rw [findings_eq, Findings.errors_append, Findings.errors_append, h.errors, List.append_nil,
      List.filterMap_eq_flatMap_toList, List.filterMap_eq_flatMap_toList]
    rfl
  · rw [findings_eq, Findings.distances_append, Findings.distances_append,
      List.filterMap_eq_flatMap_toList, List.flatMap_cons, ← List.filterMap_eq_flatMap_toList]
    exact List.perm_append_comm.trans (h.distances.append_left _)
  · rw [references_eq, List.filterMap_eq_flatMap_toList, List.flatMap_cons,
      ← List.filterMap_eq_flatMap_toList]
    exact List.perm_append_comm.trans (h.references.append_left _)
termination_by sizeOf n
decreasing_by exact sizeOf_lt_of_mem_parts hc

variable {n c : Node} {inFunction : Bool} {scopes : List Scope} {v : Visit} {p : Path}

/-- A visit is at the node that stands at its path. -/
theorem Visits.at?_eq (h : n.Visits inFunction scopes v) : n.at? v.path = some v.node := by
  induction h with
  | here => rfl
  | part hc _ ih => exact (at?_of_part hc).trans ih

/-- The walk comes to every node. -/
theorem exists_visit (hat : n.at? p = some c) :
    ∃ scopes' inFunction', n.Visits inFunction scopes ⟨p, c, scopes', inFunction'⟩ := by
  induction p generalizing n inFunction scopes with
  | nil =>
    cases hat
    exact ⟨scopes, inFunction, .here⟩
  | cons i p ih =>
    obtain ⟨c', hc', hat⟩ := exists_part hat
    obtain ⟨scopes', inFunction', hvisit⟩ := ih hat
    exact ⟨scopes', inFunction', .part hc' hvisit⟩

end Node

namespace Tour

variable {visited : Visit → Prop} {found : Findings} {refs : List (RefId × Token)}
  {visits : List Visit} {α : Type}

/-- What the visits give one by one, with the paths where they give it. -/
theorem exists_marks (h : Tour visited found refs visits) (f : Visit → Option α) :
    ∃ marks : List (Path × α), marks.map Prod.snd = visits.filterMap f ∧
      marks.Pairwise (·.1 < ·.1) ∧
        ∀ p a, (p, a) ∈ marks ↔ ∃ v, visited v ∧ v.path = p ∧ f v = some a := by
  refine ⟨visits.filterMap fun v => (f v).map (v.path, ·), ?_, ?_, fun p a => ?_⟩
  · rw [List.map_filterMap]
    exact List.filterMap_congr fun v _ => by simp
  · refine List.pairwise_filterMap.mpr (h.sorted.imp fun hlt m hm m' hm' => ?_)
    obtain ⟨a, -, rfl⟩ := Option.map_eq_some_iff.mp hm
    obtain ⟨a', -, rfl⟩ := Option.map_eq_some_iff.mp hm'
    exact hlt
  · simp only [List.mem_filterMap, h.mem_iff, Option.map_eq_some_iff, Prod.mk.injEq]
    constructor
    · rintro ⟨v, hv, a, ha, rfl, rfl⟩
      exact ⟨v, hv, rfl, ha⟩
    · rintro ⟨v, hv, rfl, ha⟩
      exact ⟨v, hv, a, ha, rfl, rfl⟩

/-- If no two references have one identity, then no identity stands at two nodes. -/
theorem eq_of_reference (h : Tour visited found refs visits) (hnodup : (refs.map Prod.fst).Nodup)
    {v w : Visit} (hv : visited v) (hw : visited w) {ref : RefId} {name name' : Token}
    (hname : v.node.reference? = some (ref, name))
    (hname' : w.node.reference? = some (ref, name')) : v = w := by
  have hvisits := (h.references.map Prod.fst).nodup_iff.mp hnodup
  rw [List.Nodup, List.pairwise_map, List.pairwise_filterMap] at hvisits
  have hsymm : Std.Symm fun v w : Visit =>
      ∀ a, v.node.reference? = some a → ∀ b, w.node.reference? = some b → a.1 ≠ b.1 :=
    ⟨fun v w hne a ha b hb hab => hne b hb a ha hab.symm⟩
  by_contra hne
  exact hvisits.forall ((h.mem_iff v).mpr hv) ((h.mem_iff w).mpr hw) hne _ hname _ hname' rfl

end Tour

end Lox

import Lox.Proofs.Grammar.Program
import Lox.Proofs.Scoping.Settled
import Lox.Proofs.Scoping.Table
import Lox.Proofs.Scoping.Walk

namespace Lox

/-- Which of the scopes declare the name. -/
def Scope.declarers (name : String) (scopes : List Scope) : List Prop :=
  scopes.map fun scope => (scope.lookup name).isSome = true

namespace Scope

variable {name : String} {scopes : List Scope}

@[simp]
theorem declarers_cons (scope : Scope) :
    declarers name (scope :: scopes) =
      ((scope.lookup name).isSome = true) :: declarers name scopes := rfl

/-- Recording a name adds it to what the innermost scope declares. -/
@[simp]
theorem declarers_record (t : Token) (defined : Bool) :
    declarers name (record t defined scopes) =
      (declarers name scopes).modifyHead (· ∨ t.lexeme = name) := by
  cases scopes with
  | nil => rfl
  | cons scope outer =>
    rw [record, declarers_cons, declarers_cons, List.modifyHead_cons, List.lookup_cons]
    by_cases h : name = t.lexeme
    · simp [h]
    · simp [beq_false_of_ne h, Ne.symm h]

/-- The scope of a call declares exactly the parameters. -/
theorem isSome_lookup_ofParameters {parameters : List Token} :
    ((ofParameters parameters).lookup name).isSome = true ↔ ∃ t ∈ parameters, t.lexeme = name := by
  rw [List.lookup_isSome_iff]
  constructor
  · rintro ⟨⟨n, defined⟩, hmem, heq⟩
    obtain rfl := beq_iff_eq.mp heq
    exact (mem_ofParameters.mp hmem).2
  · intro hparameter
    exact ⟨(name, true), mem_ofParameters.mpr ⟨rfl, hparameter⟩, beq_self_eq_true name⟩

theorem modifyHead_or {l : List Prop} {P Q : Prop} :
    (l.modifyHead (· ∨ P)).modifyHead (· ∨ Q) = l.modifyHead (· ∨ (P ∨ Q)) := by
  rw [List.modifyHead_modifyHead]
  simp only [Function.comp_def, or_assoc]

theorem modifyHead_or_of_not {l : List Prop} {P : Prop} (h : ¬ P) :
    l.modifyHead (· ∨ P) = l := by
  cases l <;> simp [h]

end Scope

namespace Node

open Scope

variable {n c : Node} {name : String} {scopes : List Scope} {inFunction : Bool} {v : Visit}

/-- An expression declares no name. -/
theorem not_freeIn_expression {e : Expr RefId} : ¬ (expression e).FreeIn name := by
  rw [freeIn_iff, declares_nil]
  rintro (⟨_, hnone, -⟩ | ⟨-, c, hc, hfree⟩)
  · cases hnone
  · have hlt := sizeOf_lt_of_mem_parts hc
    obtain ⟨e', rfl⟩ := exists_expression_of_mem_parts hc
    exact not_freeIn_expression hfree
termination_by sizeOf e
decreasing_by simpa using hlt

/-- Expressions declare nothing. -/
theorem freeIn_iff_of_expressions (h : ∀ c ∈ n.parts, ∃ e, c = expression e) :
    n.FreeIn name ↔ ∃ t, n.declared? = some t ∧ t.lexeme = name := by
  rw [freeIn_iff, declares_nil, or_iff_left_iff_imp]
  rintro ⟨-, c, hc, hfree⟩
  obtain ⟨e, rfl⟩ := h c hc
  exact absurd hfree not_freeIn_expression

/-- What stands in the scope of a block or a function does not stand around it. -/
theorem freeIn_iff_of_opens (h : n.opens = true) :
    n.FreeIn name ↔ ∃ t, n.declared? = some t ∧ t.lexeme = name := by
  rw [freeIn_iff, declares_nil, h]
  simp

/-- What a statement leaves declared are the names that it declares where it stands. -/
theorem declarers_leave (scopes : List Scope) (s : Stmt RefId) :
    declarers name ((statement s).leave scopes) =
      (declarers name scopes).modifyHead (· ∨ (statement s).FreeIn name) := by
  cases s with
  | expression e | print e =>
    refine (modifyHead_or_of_not ?_).symm
    rw [freeIn_iff_of_expressions (by simp [parts])]
    simp [declared?]
  | var t initializer =>
    have hfree : (statement (.var t initializer)).FreeIn name ↔ t.lexeme = name := by
      rw [freeIn_iff_of_expressions (by cases initializer <;> simp [parts])]
      simp [declared?]
    cases initializer <;>
      simp only [leave, Stmt.findings, declarers_record, hfree, modifyHead_or, or_self]
  | block body =>
    refine (modifyHead_or_of_not ?_).symm
    rw [freeIn_iff_of_opens rfl]
    simp [declared?]
  | function t parameters body =>
    have hfree : (statement (.function t parameters body)).FreeIn name ↔ t.lexeme = name := by
      rw [freeIn_iff_of_opens rfl]
      simp [declared?]
    rw [hfree]
    exact declarers_record t true
  | «if» condition thenBranch elseBranch =>
    cases elseBranch with
    | none =>
      have hfree : (statement (.if condition thenBranch none)).FreeIn name ↔
          (statement thenBranch).FreeIn name := by
        rw [freeIn_iff]
        simp [declares_nil, declared?, opens, parts, not_freeIn_expression]
      rw [hfree]
      exact declarers_leave _ thenBranch
    | some elseBranch =>
      have hfree : (statement (.if condition thenBranch (some elseBranch))).FreeIn name ↔
          (statement thenBranch).FreeIn name ∨ (statement elseBranch).FreeIn name := by
        rw [freeIn_iff]
        simp [declares_nil, declared?, opens, parts, not_freeIn_expression]
      rw [hfree, ← modifyHead_or, ← declarers_leave _ thenBranch]
      exact declarers_leave ((statement thenBranch).leave scopes) elseBranch
  | «while» condition body =>
    have hfree : (statement (.while condition body)).FreeIn name ↔
        (statement body).FreeIn name := by
      rw [freeIn_iff]
      simp [declares_nil, declared?, opens, parts, not_freeIn_expression]
    rw [hfree]
    exact declarers_leave scopes body
  | «return» keyword value =>
    have hfree : ¬ (statement (.return keyword value)).FreeIn name := by
      rw [freeIn_iff_of_expressions (by cases value <;> simp [parts])]
      simp [declared?]
    rw [modifyHead_or_of_not hfree]
    cases value <;> rfl

/-- A part of a node leaves the scopes with the names that it declares itself added to the innermost
    one. -/
theorem declarers_leave_of_mem_parts (hc : c ∈ n.parts) (scopes : List Scope) :
    declarers name (c.leave scopes) =
      (declarers name scopes).modifyHead (· ∨ c.FreeIn name) := by
  cases c with
  | program ss => exact absurd rfl (ne_program_of_mem_parts hc)
  | statement s => exact declarers_leave scopes s
  | expression e => exact (modifyHead_or_of_not not_freeIn_expression).symm

/-- Parts that are walked one after another add what each of them declares. -/
theorem declarers_leaveAll {nodes : List Node} (h : ∀ c ∈ nodes, ∀ scopes : List Scope,
      declarers name (c.leave scopes) = (declarers name scopes).modifyHead (· ∨ c.FreeIn name)) :
    declarers name (leaveAll scopes nodes) =
      (declarers name scopes).modifyHead (· ∨ ∃ c ∈ nodes, c.FreeIn name) := by
  induction nodes generalizing scopes with
  | nil => exact (modifyHead_or_of_not (by simp)).symm
  | cons c nodes ih =>
    obtain ⟨hc, hnodes⟩ := List.forall_mem_cons.mp h
    rw [leaveAll, List.foldl_cons, ← leaveAll, ih hnodes, hc, modifyHead_or]
    simp only [List.mem_cons, exists_eq_or_imp]

/-- A node that opens a scope opens it with its parameters; every other adds its own declaration. -/
theorem declarers_enter {i : Nat} (hc : n.parts[i]? = some c) :
    declarers name (n.enter scopes) =
      (if n.opens then [∃ t ∈ n.parameters, t.lexeme = name] else []) ++
        (declarers name scopes).modifyHead (· ∨ n.Declares name []) := by
  have hnone (h : n.declared? = none) :
      (declarers name scopes).modifyHead (· ∨ n.Declares name []) = declarers name scopes := by
    refine modifyHead_or_of_not ?_
    simp [declares_nil, h]
  cases n with
  | program | expression => exact (hnone rfl).symm
  | statement s =>
    cases s with
    | var t initializer =>
      cases initializer with
      | none => cases hc
      | some e => simp [enter, opens, declares_nil, declared?]
    | function t ts body =>
      simp only [enter, opens, declares_nil, declared?, parameters, declarers_cons,
        isSome_lookup_ofParameters, declarers_record, if_true, List.singleton_append]
      simp
    | block body =>
      rw [hnone rfl]
      simp [enter, opens, parameters]
    | _ => exact (hnone rfl).symm

/-- The blocks and functions around a node, the innermost first. -/
def around (n : Node) : Path → List Path
  | [] => []
  | i :: p =>
    (n.parts[i]?.elim [] fun c => (c.around p).map (i :: ·)) ++ if n.opens then [[]] else []

/-- The regions around a path are those around its tail, and the node itself where it opens a
    scope. -/
theorem around_cons {i : Nat} {p : Path} (hc : n.parts[i]? = some c) :
    n.around (i :: p) = (c.around p).map (i :: ·) ++ if n.opens then [[]] else [] := by
  rw [around, hc, Option.elim_some]

/-- The scopes of a visit are those around it, each with the names that it declares before, and
    those around the whole walk. -/
theorem Visits.declarers_eq (h : n.Visits inFunction scopes v) :
    declarers name v.scopes =
      (n.around v.path).map (fun q => n.DeclaredBefore q name v.path) ++
        (declarers name scopes).modifyHead (· ∨ n.FreeBefore name v.path) := by
  induction h with
  | here =>
    refine (modifyHead_or_of_not ?_).symm
    rintro ⟨r, hlt, -⟩
    exact List.not_lt_nil r hlt
  | @part n c inFunction scopes i v hc h ih =>
    have hparts : (∃ c' ∈ n.parts.take i, c'.FreeIn name) ∨ c.FreeBefore name v.path ↔
        n.PartsFreeBefore name i v.path := by
      simp [PartsFreeBefore, hc]
    have hinner : ((c.around v.path).map (i :: ·)).map
        (fun q => n.DeclaredBefore q name (i :: v.path)) =
          (c.around v.path).map (fun q => c.DeclaredBefore q name v.path) := by
      rw [List.map_map]
      exact List.map_congr_left fun q _ => propext (declaredBefore_cons hc)
    have hleave : declarers name (leaveAll (n.enter scopes) (n.parts.take i)) =
        (declarers name (n.enter scopes)).modifyHead (· ∨ ∃ c ∈ n.parts.take i, c.FreeIn name) :=
      declarers_leaveAll fun c' hc' => declarers_leave_of_mem_parts (List.mem_of_mem_take hc')
    rw [Visit.inPart, around_cons hc, List.map_append, hinner, ih, hleave, modifyHead_or,
      hparts, declarers_enter hc, List.append_assoc]
    congr 1
    cases hopens : n.opens with
    | true => simp [declaredBefore_nil, freeBefore_cons, hopens]
    | false =>
      simp only [freeBefore_cons, hopens, Bool.false_eq_true, if_false, List.nil_append,
        List.map_nil, modifyHead_or, true_and]

variable {p q r : Path}

/-- The list of regions around a path has exactly the nodes that enclose it. -/
theorem mem_around (hat : n.at? p = some c) : q ∈ n.around p ↔ n.Encloses q p := by
  induction p generalizing n q with
  | nil => simp [around, not_encloses_nil]
  | cons i p ih =>
    obtain ⟨c', hc', hat⟩ := exists_part hat
    rw [around_cons hc', List.mem_append, List.mem_map]
    constructor
    · rintro (⟨q, hq, rfl⟩ | hq)
      · exact (encloses_cons_cons hc').mpr ((ih hat).mp hq)
      · split at hq
        · rw [List.mem_singleton.mp hq]
          exact encloses_nil_iff.mpr ⟨List.cons_ne_nil i p, ‹_›⟩
        · cases hq
    · intro hq
      rcases hq.cons with ⟨rfl, hopens⟩ | ⟨q, rfl⟩
      · exact .inr (by simp [hopens])
      · exact .inl ⟨q, (ih hat).mpr ((encloses_cons_cons hc').mp hq), rfl⟩

/-- Each of the blocks and functions around a node lies in all that come behind it. -/
theorem pairwise_around (n : Node) (p : Path) :
    (n.around p).Pairwise fun q r => r <+: q ∧ r ≠ q := by
  induction p generalizing n with
  | nil => exact .nil
  | cons i p ih =>
    cases hc : n.parts[i]? with
    | none =>
      rw [around, hc]
      cases n.opens <;> simp
    | some c =>
      rw [around_cons hc]
      refine List.pairwise_append.mpr ⟨?_, ?_, ?_⟩
      · rw [List.pairwise_map]
        refine (ih c).imp fun h => ⟨List.cons_prefix_cons.mpr ⟨rfl, h.1⟩, fun heq => ?_⟩
        exact h.2 (List.cons.inj heq).2
      · cases n.opens <;> simp
      · intro q hq r hr
        obtain ⟨q, -, rfl⟩ := List.mem_map.mp hq
        split at hr
        · rw [List.mem_singleton.mp hr]
          exact ⟨List.nil_prefix, (List.cons_ne_nil i q).symm⟩
        · cases hr

/-- One of the blocks and functions around a node lies within all that come behind it. -/
theorem within_of_lt {i j : Nat} (hq : (n.around p)[j]? = some q) (hr : (n.around p)[i]? = some r)
    (hlt : i < j) : q <+: r ∧ q ≠ r := by
  obtain ⟨hj, rfl⟩ := List.getElem?_eq_some_iff.mp hq
  obtain ⟨hi, rfl⟩ := List.getElem?_eq_some_iff.mp hr
  exact List.pairwise_iff_getElem.mp (n.pairwise_around p) i j hi hj hlt

/-- The blocks and functions between one around a node and the node are those in front of it. -/
theorem ncard_between (hat : n.at? p = some c) {d : Nat} (hq : (n.around p)[d]? = some q) :
    {r | n.Encloses r p ∧ q <+: r ∧ q ≠ r}.ncard = d := by
  have hset : {r | n.Encloses r p ∧ q <+: r ∧ q ≠ r} = ((n.around p).take d).toFinset := by
    ext r
    rw [Set.mem_ofPred_eq, ← mem_around hat, Finset.mem_coe, List.mem_toFinset,
      List.mem_iff_getElem?, List.mem_iff_getElem?]
    constructor
    · rintro ⟨⟨i, hi⟩, hpre, hne⟩
      rcases Nat.lt_trichotomy i d with hlt | rfl | hlt
      · exact ⟨i, (List.getElem?_take_of_lt hlt).trans hi⟩
      · exact absurd (Option.some.inj (hq.symm.trans hi)) hne
      · obtain ⟨hpre', -⟩ := within_of_lt hi hq hlt
        exact absurd (hpre.eq_of_length_le hpre'.length_le) hne
    · rintro ⟨i, hi⟩
      rw [List.getElem?_take] at hi
      split at hi
      · exact ⟨⟨i, hi⟩, within_of_lt hq hi ‹_›⟩
      · cases hi
  have hnodup : (n.around p).Nodup := (n.pairwise_around p).imp fun h => h.2.symm
  have hlt : d < (n.around p).length := (List.getElem?_eq_some_iff.mp hq).1
  rw [hset, Set.ncard_coe_finset,
    List.toFinset_card_of_nodup (hnodup.sublist (List.take_sublist _ _)), List.length_take,
    Nat.min_eq_left hlt.le]

/-- A distance is found exactly where its scope declares the name and no scope inside it does. -/
theorem distance?_eq_some_iff {t : Token} {d : Nat} {l : List Path} {P : Path → Prop}
    (h : declarers t.lexeme scopes = l.map P) :
    Scope.distance? scopes t = some d ↔
      ∃ q, l[d]? = some q ∧ P q ∧ ∀ j < d, ∀ r, l[j]? = some r → ¬ P r := by
  have hlength : scopes.length = l.length := by simpa [declarers] using congrArg List.length h
  have hget (j : Nat) (hj : j < scopes.length) :
      (scopes[j].lookup t.lexeme).isSome = true ↔ P l[j] := by
    have hj' := congrArg (·[j]?) h
    simp only [declarers, List.getElem?_map, List.getElem?_eq_getElem hj,
      List.getElem?_eq_getElem (hlength ▸ hj), Option.map_some] at hj'
    exact iff_of_eq (Option.some.inj hj')
  rw [Scope.distance?, List.findIdx?_eq_some_iff_getElem]
  constructor
  · rintro ⟨hlt, hdeclared, hbefore⟩
    refine ⟨l[d], List.getElem?_eq_getElem _, (hget d hlt).mp hdeclared, fun j hj r hr hP => ?_⟩
    obtain ⟨hj', rfl⟩ := List.getElem?_eq_some_iff.mp hr
    exact hbefore j hj ((hget j (hj.trans hlt)).mpr hP)
  · rintro ⟨q, hq, hP, hbefore⟩
    obtain ⟨hlt, rfl⟩ := List.getElem?_eq_some_iff.mp hq
    have hlt' : d < scopes.length := hlength ▸ hlt
    refine ⟨hlt', (hget d hlt').mpr hP, fun j hj hdeclared => ?_⟩
    exact hbefore j hj _ (List.getElem?_eq_getElem _) ((hget j (hj.trans hlt')).mp hdeclared)

/-- A reference of a program has the distance that the text gives it. -/
theorem Visits.distance?_iff {program : List (Stmt RefId)}
    (h : (Node.program program).Visits false [] v) (t : Token) (d : Nat) :
    Scope.distance? v.scopes t = some d ↔ (Node.program program).Resolves v.path t.lexeme d := by
  have hat := h.at?_eq
  rw [distance?_eq_some_iff (h.declarers_eq.trans (List.append_nil _))]
  constructor
  · rintro ⟨q, hq, hdeclared, hbefore⟩
    refine ⟨q, (mem_around hat).mp (List.mem_of_getElem? hq), hdeclared, fun r hr hdeclared' => ?_,
      (ncard_between hat hq).symm⟩
    obtain ⟨i, hi⟩ := List.mem_iff_getElem?.mp ((mem_around hat).mpr hr)
    rcases Nat.lt_trichotomy i d with hlt | rfl | hlt
    · exact absurd hdeclared' (hbefore i hlt r hi)
    · rw [Option.some.inj (hi.symm.trans hq)]
    · exact (within_of_lt hi hq hlt).1
  · rintro ⟨q, hq, hdeclared, hinnermost, rfl⟩
    obtain ⟨i, hi⟩ := List.mem_iff_getElem?.mp ((mem_around hat).mpr hq)
    rw [ncard_between hat hi]
    refine ⟨q, hi, hdeclared, fun j hlt r hr hdeclared' => ?_⟩
    obtain ⟨hpre, hne⟩ := within_of_lt hi hr hlt
    have henclosed := (mem_around hat).mp (List.mem_of_getElem? hr)
    exact hne (hpre.eq_of_length_le (hinnermost r henclosed hdeclared').length_le)

/-- The entry that is made at a visit. -/
theorem Visits.entry?_iff {program : List (Stmt RefId)}
    (h : (Node.program program).Visits false [] v) {ref : RefId} {d : Nat} :
    v.entry? = some (ref, d) ↔ ∃ name : Token, v.node.reference? = some (ref, name) ∧
      (Node.program program).Resolves v.path name.lexeme d := by
  rw [Visit.entry?, Node.entry?, Option.bind_eq_some_iff]
  constructor
  · rintro ⟨⟨_, name⟩, hreference, hentry⟩
    obtain ⟨d, hd, heq⟩ := Option.map_eq_some_iff.mp hentry
    cases heq
    exact ⟨name, hreference, (h.distance?_iff name d).mp hd⟩
  · rintro ⟨name, hreference, hresolves⟩
    refine ⟨(ref, name), hreference, ?_⟩
    rw [Scope.entry?, (h.distance?_iff name d).mpr hresolves, Option.map_some]

/-- At `p` stands a reference with this identity, some scope around it declares its name before it,
    and so many scopes lie between. -/
def ResolvedAt (n : Node) (p : Path) (ref : RefId) (distance : Nat) : Prop :=
  ∃ c name, n.at? p = some c ∧ c.reference? = some (ref, name) ∧ n.Resolves p name.lexeme distance

end Node

/-- The table is that of lexical scoping: a reference has an entry just if some scope around it
    declares its name before it, and the entry says how many scopes lie between the two; there are
    no other entries. -/
structure LexicallyScoped (program : List (Stmt RefId)) (table : Distances) : Prop where
  entry : ∀ p c ref name, (Node.program program).at? p = some c →
    c.reference? = some (ref, name) → ∀ distance : Nat,
      table[ref]? = some distance ↔ (Node.program program).Resolves p name.lexeme distance
  only : ∀ (ref : RefId) (distance : Nat), table[ref]? = some distance →
    ∃ p, (Node.program program).ResolvedAt p ref distance
  size : table.size = {p | ∃ ref distance, (Node.program program).ResolvedAt p ref distance}.ncard

/-- There are as many entries as references that the text resolves. -/
theorem ncard_resolvedAt {program : List (Stmt RefId)} {found : Findings}
    {refs : List (RefId × Token)} {visits : List Visit}
    (h : Tour ((Node.program program).Visits false []) found refs visits) :
    {p | ∃ ref distance, (Node.program program).ResolvedAt p ref distance}.ncard =
      found.distances.length := by
  obtain ⟨marks, hmarks, hsorted, hmem⟩ := h.exists_marks Visit.entry?
  have hset : {p | ∃ ref d, (Node.program program).ResolvedAt p ref d} =
      (marks.map Prod.fst).toFinset := by
    ext p
    rw [Set.mem_ofPred_eq, Finset.mem_coe, List.mem_toFinset, List.mem_map]
    constructor
    · rintro ⟨ref, d, c, name, hat, hname, hresolves⟩
      obtain ⟨scopes, inFunction, hv⟩ := Node.exists_visit hat
      have hentry := hv.entry?_iff.mpr ⟨name, hname, hresolves⟩
      exact ⟨(p, (ref, d)), (hmem p (ref, d)).mpr ⟨_, hv, rfl, hentry⟩, rfl⟩
    · rintro ⟨⟨_, ref, d⟩, hmark, rfl⟩
      obtain ⟨v, hv, rfl, hentry⟩ := (hmem _ _).mp hmark
      obtain ⟨name, hname, hresolves⟩ := hv.entry?_iff.mp hentry
      exact ⟨ref, d, v.node, name, hv.at?_eq, hname, hresolves⟩
  have hpaths : (marks.map Prod.fst).Nodup :=
    List.pairwise_map.mpr (hsorted.imp fun hlt => hlt.ne)
  rw [hset, Set.ncard_coe_finset, List.toFinset_card_of_nodup hpaths, h.distances.length_eq,
    ← hmarks, List.length_map, List.length_map]

section Table

variable {program : List (Stmt RefId)} (hnodup : ((Stmt.referencesAll program).map Prod.fst).Nodup)

include hnodup

/-- No reference of a parsed program is assigned a distance twice. -/
theorem pairwise_distances_findingsOf :
    (findingsOf program).distances.Pairwise fun a b => ¬ compare a.1 b.1 = .eq := by
  have hkeys : ((findingsOf program).distances.map Prod.fst).Nodup := by
    rw [distances_findingsOf]
    rw [← map_fst_scopedReferences] at hnodup
    exact hnodup.sublist map_fst_entries_sublist
  rw [List.Nodup, List.pairwise_map] at hkeys
  exact hkeys.imp fun hne heq => hne (compare_eq_iff_eq.mp heq)

/-- The table of a program has exactly the distances that scoping found. -/
theorem getElem?_table_iff {ref : RefId} {d : Nat} :
    (findingsOf program).table[ref]? = some d ↔ (ref, d) ∈ (findingsOf program).distances := by
  have hget {d : Nat} (hmem : (ref, d) ∈ (findingsOf program).distances) :
      (findingsOf program).table[ref]? = some d :=
    Std.TreeMap.getElem?_ofList_of_mem Std.ReflCmp.compare_self
      (pairwise_distances_findingsOf hnodup) hmem
  refine ⟨fun hsome => ?_, hget⟩
  by_cases hkey : ref ∈ (findingsOf program).distances.map Prod.fst
  · obtain ⟨⟨_, d'⟩, hmem, rfl⟩ := List.mem_map.mp hkey
    rw [hget hmem, Option.some.injEq] at hsome
    exact hsome ▸ hmem
  · have hnone : (findingsOf program).table[ref]? = none := by
      refine Std.TreeMap.getElem?_ofList_of_contains_eq_false ?_
      rwa [List.contains_eq_mem, decide_eq_false_iff_not]
    rw [hnone] at hsome
    cases hsome

/-- A program whose references differ from each other is lexically scoped by its own table. -/
theorem lexicallyScoped_of_nodup : LexicallyScoped program (findingsOf program).table := by
  obtain ⟨visits, htour⟩ := (Node.program program).exists_tour false []
  have hentries {ref : RefId} {d : Nat} : (findingsOf program).table[ref]? = some d ↔
      ∃ v, (Node.program program).Visits false [] v ∧ v.entry? = some (ref, d) := by
    rw [getElem?_table_iff hnodup]
    refine (htour.distances.mem_iff).trans ?_
    simp only [List.mem_filterMap, htour.mem_iff]
  refine ⟨fun p c ref name hat hname d => ?_, fun ref d h => ?_, ?_⟩
  · obtain ⟨scopes, inFunction, hv⟩ := Node.exists_visit hat
    rw [hentries]
    constructor
    · rintro ⟨w, hw, hentry⟩
      obtain ⟨name', hname', hresolves⟩ := hw.entry?_iff.mp hentry
      obtain rfl := htour.eq_of_reference hnodup hv hw hname hname'
      rw [hname] at hname'
      cases hname'
      exact hresolves
    · intro hresolves
      exact ⟨_, hv, hv.entry?_iff.mpr ⟨name, hname, hresolves⟩⟩
  · obtain ⟨v, hv, hentry⟩ := hentries.mp h
    obtain ⟨name, hname, hresolves⟩ := hv.entry?_iff.mp hentry
    exact ⟨v.path, v.node, name, hv.at?_eq, hname, hresolves⟩
  · rw [ncard_resolvedAt htour]
    exact Std.TreeMap.size_ofList (pairwise_distances_findingsOf hnodup)

end Table

/-- Scoping is lexical, for every program in which no two references have one identity, and so for
    every program that was read from tokens, with errors in them or without, and numbered. -/
theorem lexicallyScoped :
    (∀ program : List (Stmt RefId), ((Stmt.referencesAll program).map Prod.fst).Nodup →
      LexicallyScoped program (findingsOf program).table) ∧
    ∀ (next : Nat) (tokens : List Token),
      LexicallyScoped (Stmt.numberAll next (Grammar.program tokens).statements).1
        (findingsOf (Stmt.numberAll next (Grammar.program tokens).statements).1).table :=
  ⟨fun _ => lexicallyScoped_of_nodup,
    fun next _ => lexicallyScoped_of_nodup (Stmt.numbered_numberAll next _).nodup⟩

/-- A block with a variable, and a function in it with a parameter of the same name, which is read
    in a block in the body. -/
def shadowing : List (Stmt RefId) :=
  let a : Token := ⟨.identifier, "a", 1, 0⟩
  [.block
    [.var a none,
      .function ⟨.identifier, "f", 1, 0⟩ [a] [.block [.print (.var 0 a)]],
      .expression (.assign 2 a (.var 1 a))]]

/-- One scope lies between the read and the scope of the parameter, and the assignment, as the read
    in it, is to the variable of the block. -/
theorem lexicallyScoped_shadowing :
    ((Stmt.referencesAll shadowing).map Prod.fst).Nodup ∧
      (Node.program shadowing).Resolves [0, 1, 0, 0, 0] "a" 1 ∧
        (Node.program shadowing).Resolves [0, 2, 0] "a" 0 := by
  have hnodup : ((Stmt.referencesAll shadowing).map Prod.fst).Nodup := by decide
  have hscoped := lexicallyScoped.1 shadowing hnodup
  exact ⟨hnodup, (hscoped.entry [0, 1, 0, 0, 0] _ _ _ rfl rfl 1).mp (by decide +kernel),
    (hscoped.entry [0, 2, 0] _ _ _ rfl rfl 0).mp (by decide +kernel)⟩

end Lox

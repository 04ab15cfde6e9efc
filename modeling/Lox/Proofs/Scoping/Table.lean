import Lox.Proofs.Scoping.Place

namespace Lox

variable {table : Distances} {next ref : Nat} {name : Token}

section Entries

variable {σ : Type} {value : σ → Option Nat} {items : List (Nat × σ)}

/-- The entries of a table that come from items with keys. -/
def entries (value : σ → Option Nat) (items : List (Nat × σ)) : List (Nat × Nat) :=
  items.filterMap fun item => (value item.2).map (item.1, ·)

theorem map_fst_entries_sublist :
    ((entries value items).map Prod.fst).Sublist (items.map Prod.fst) := by
  unfold entries
  induction items with
  | nil => exact .slnil
  | cons item items ih =>
    cases hvalue : value item.2 with
    | none => simpa [hvalue] using ih.cons item.1
    | some d => simpa [hvalue] using ih.cons_cons item.1

/-- An item is the only one with its key, so its value alone decides about the entry. -/
theorem mem_entries_iff {x : σ} {d : Nat} (hnodup : (items.map Prod.fst).Nodup)
    (hmem : (ref, x) ∈ items) : (ref, d) ∈ entries value items ↔ value x = some d := by
  rw [entries, List.mem_filterMap]
  constructor
  · rintro ⟨⟨_, y⟩, hitem, hsome⟩
    obtain ⟨d', hd, heq⟩ := Option.map_eq_some_iff.mp hsome
    cases heq
    cases List.inj_on_of_nodup_map hnodup hitem hmem rfl
    exact hd
  · intro hvalue
    exact ⟨(ref, x), hmem, by simp [hvalue]⟩

/-- What is learned of other references leaves an entry alone. -/
theorem getElem?_insertMany_of_notMem (href : ref ∉ items.map Prod.fst) :
    (table.insertMany (entries value items))[ref]? = table[ref]? := by
  refine Std.TreeMap.getElem?_insertMany_list_of_contains_eq_false ?_
  rw [List.contains_eq_mem, decide_eq_false_iff_not]
  exact fun hmem => href (map_fst_entries_sublist.subset hmem)

/-- A reference that is new to the table has the entry that is learned for it. -/
theorem getElem?_insertMany_of_mem {x : σ} (hnodup : (items.map Prod.fst).Nodup)
    (hmem : (ref, x) ∈ items) (hnew : table[ref]? = none) :
    (table.insertMany (entries value items))[ref]? = value x := by
  cases hvalue : value x with
  | none =>
    rw [← hnew]
    refine Std.TreeMap.getElem?_insertMany_list_of_contains_eq_false ?_
    rw [List.contains_eq_mem, decide_eq_false_iff_not]
    intro hkey
    obtain ⟨⟨_, d⟩, hentry, rfl⟩ := List.mem_map.mp hkey
    rw [mem_entries_iff hnodup hmem, hvalue] at hentry
    cases hentry
  | some d =>
    refine Std.TreeMap.getElem?_insertMany_list_of_mem Std.ReflCmp.compare_self ?_
      ((mem_entries_iff hnodup hmem).mpr hvalue)
    have hkeys := hnodup.sublist (@map_fst_entries_sublist σ value items)
    rw [List.Nodup, List.pairwise_map] at hkeys
    exact hkeys.imp fun hne heq => hne (compare_eq_iff_eq.mp heq)

end Entries

/-- The references at these places, each with the scopes around it and its name. -/
def Place.scopedReferences (places : List Place) : List (Nat × (List Scope × Token)) :=
  places.flatMap fun p =>
    p.expression.references.map fun reference => (reference.1, (p.nest.scopes, reference.2))

/-- Each reference at a place stands among the scopes of that place. -/
theorem Place.mem_scopedReferences {places : List Place} {p : Place} (hp : p ∈ places)
    (href : (ref, name) ∈ p.expression.references) :
    (ref, (p.nest.scopes, name)) ∈ Place.scopedReferences places :=
  List.mem_flatMap.mpr ⟨p, hp, List.mem_map.mpr ⟨(ref, name), href, rfl⟩⟩

theorem Place.map_fst_scopedReferences (places : List Place) :
    (Place.scopedReferences places).map Prod.fst =
      (places.flatMap fun p => p.expression.references).map Prod.fst := by
  rw [Place.scopedReferences, List.map_flatMap, List.map_flatMap]
  simp only [List.map_map, Function.comp_def]

/-- Where findings cover places, their distances are read off the references there. -/
theorem Findings.Cover.distances_eq_entries {found : Findings} {places : List Place}
    (h : found.Cover places) : found.distances =
      entries (fun context => Scope.distance? context.1 context.2)
        (Place.scopedReferences places) := by
  refine h.distances.trans ?_
  rw [entries, Place.scopedReferences, List.filterMap_flatMap]
  simp only [Place.findings, Expr.distances_findings, List.filterMap_map]
  rfl

/-- The references of a program, each with the scopes around it and its name. -/
def scopedReferences (program : List (Stmt RefId)) : List (Nat × (List Scope × Token)) :=
  Place.scopedReferences (placesOf program)

theorem mem_scopedReferences {program : List (Stmt RefId)} {p : Place} (hp : p ∈ placesOf program)
    (href : (ref, name) ∈ p.expression.references) :
    (ref, (p.nest.scopes, name)) ∈ scopedReferences program :=
  Place.mem_scopedReferences hp href

theorem map_fst_scopedReferences (program : List (Stmt RefId)) :
    (scopedReferences program).map Prod.fst = (Stmt.referencesAll program).map Prod.fst := by
  rw [Stmt.references_placesAll [] program]
  exact Place.map_fst_scopedReferences (placesOf program)

/-- The distances of a program are those of its references in the scopes where they stand. -/
theorem distances_findingsOf (program : List (Stmt RefId)) :
    (findingsOf program).distances =
      entries (fun context => Scope.distance? context.1 context.2) (scopedReferences program) :=
  (Stmt.findings_placesAll false [] program).2.distances_eq_entries

/-- A program changes no entry of the references of others. -/
theorem getElem?_learn_of_lt {ss : List (Stmt Unit)}
    (href : ref < next ∨ (Stmt.numberAll next ss).2 ≤ ref) :
    (table.insertMany (findingsOf (Stmt.numberAll next ss).1).distances)[ref]? = table[ref]? := by
  rw [distances_findingsOf]
  refine getElem?_insertMany_of_notMem ?_
  rw [map_fst_scopedReferences]
  intro hmem
  obtain ⟨⟨_, name⟩, hreference, rfl⟩ := List.mem_map.mp hmem
  have hbounds := (Stmt.numbered_numberAll next ss).mem_bounds hreference
  rcases href with hlt | hle
  · exact Nat.not_lt.mpr hbounds.1 hlt
  · exact Nat.not_lt.mpr hle hbounds.2

section Learn

variable {ss : List (Stmt Unit)} {p : Place}

/-- The references of a numbered program differ from each other. -/
theorem nodup_scopedReferences :
    ((scopedReferences (Stmt.numberAll next ss).1).map Prod.fst).Nodup := by
  rw [map_fst_scopedReferences]
  exact (Stmt.numbered_numberAll next ss).nodup

/-- The references of a program that was numbered from `next` on are not below it. -/
theorem bounds_of_place (hp : p ∈ placesOf (Stmt.numberAll next ss).1)
    (href : (ref, name) ∈ p.expression.references) :
    next ≤ ref ∧ ref < (Stmt.numberAll next ss).2 := by
  have hmem : (ref, name) ∈ Stmt.referencesAll (Stmt.numberAll next ss).1 := by
    rw [Stmt.references_placesAll []]
    exact List.mem_flatMap.mpr ⟨p, hp, href⟩
  exact (Stmt.numbered_numberAll next ss).mem_bounds hmem

/-- Scoping has an entry for a reference just if a scope around it declares its name. -/
theorem mem_distances_iff {d : Nat} (hp : p ∈ placesOf (Stmt.numberAll next ss).1)
    (href : (ref, name) ∈ p.expression.references) :
    (ref, d) ∈ (findingsOf (Stmt.numberAll next ss).1).distances ↔
      Scope.distance? p.nest.scopes name = some d := by
  rw [distances_findingsOf]
  exact mem_entries_iff nodup_scopedReferences (mem_scopedReferences hp href)

/-- Each reference of the program has the distance to the scope that declares its name, or no entry
    if no scope does. -/
theorem getElem?_learn (hnew : ∀ ref : Nat, next ≤ ref → table[ref]? = none)
    (hp : p ∈ placesOf (Stmt.numberAll next ss).1) (href : (ref, name) ∈ p.expression.references) :
    (table.insertMany (findingsOf (Stmt.numberAll next ss).1).distances)[ref]? =
      Scope.distance? p.nest.scopes name := by
  rw [distances_findingsOf]
  exact getElem?_insertMany_of_mem nodup_scopedReferences (mem_scopedReferences hp href)
    (hnew ref (bounds_of_place hp href).1)

/-- The table has just the entries that scoping made for identities that were left. -/
theorem getElem?_learn_iff {d : Nat} (hnew : ∀ ref : Nat, next ≤ ref → table[ref]? = none)
    (href : next ≤ ref) :
    (table.insertMany (findingsOf (Stmt.numberAll next ss).1).distances)[ref]? = some d ↔
      (ref, d) ∈ (findingsOf (Stmt.numberAll next ss).1).distances := by
  rw [distances_findingsOf]
  by_cases hreference : ref ∈ (scopedReferences (Stmt.numberAll next ss).1).map Prod.fst
  · obtain ⟨⟨_, context⟩, hmem, rfl⟩ := List.mem_map.mp hreference
    rw [getElem?_insertMany_of_mem nodup_scopedReferences hmem (hnew _ href),
      mem_entries_iff nodup_scopedReferences hmem]
  · rw [getElem?_insertMany_of_notMem hreference, hnew ref href]
    exact iff_of_false (Option.some_ne_none d).symm fun hmem =>
      hreference (map_fst_entries_sublist.subset (List.mem_map_of_mem hmem))

end Learn

section Statement

/-! The same of a statement that stands among other scopes. -/

variable {nest : Nest} {s : Stmt Unit} {p : Place} {inFunction : Bool}

/-- After a numbered statement is learned, each of its references has the distance of its place. -/
theorem Stmt.getElem?_learn (hnew : ∀ ref : Nat, next ≤ ref → table[ref]? = none)
    (hp : p ∈ ((s.number next).1.places nest).1) (href : (ref, name) ∈ p.expression.references) :
    (table.insertMany ((s.number next).1.findings inFunction nest.scopes).1.distances)[ref]? =
      Scope.distance? p.nest.scopes name := by
  have hnumbered := Stmt.numbered_number next s
  have hmem : (ref, name) ∈ (s.number next).1.references := by
    rw [Stmt.references_places nest]
    exact List.mem_flatMap.mpr ⟨p, hp, href⟩
  rw [(Stmt.findings_places inFunction nest _).2.distances_eq_entries]
  refine getElem?_insertMany_of_mem ?_ (Place.mem_scopedReferences hp href)
    (hnew ref (hnumbered.mem_bounds hmem).1)
  rw [Place.map_fst_scopedReferences, ← Stmt.references_places]
  exact hnumbered.nodup

/-- Learning a numbered statement changes no entry of an earlier identity. -/
theorem Stmt.getElem?_learn_of_lt (href : ref < next) :
    (table.insertMany ((s.number next).1.findings inFunction nest.scopes).1.distances)[ref]? =
      table[ref]? := by
  rw [(Stmt.findings_places inFunction nest _).2.distances_eq_entries]
  refine getElem?_insertMany_of_notMem ?_
  rw [Place.map_fst_scopedReferences, ← Stmt.references_places]
  intro hmem
  obtain ⟨⟨_, name⟩, hreference, rfl⟩ := List.mem_map.mp hmem
  exact Nat.not_lt.mpr ((Stmt.numbered_number next s).mem_bounds hreference).1 href

end Statement

end Lox

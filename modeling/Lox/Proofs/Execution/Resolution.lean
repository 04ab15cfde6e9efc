import Lox.Proofs.Execution.Preservation

namespace Lox

/-- The innermost of these scopes that declares the name. -/
def Nest.Declares (nest : Nest) (name : String) (d : Nat) (region : Region) (scope : Scope) :
    Prop :=
  nest[d]? = some (region, scope) ∧ (scope.lookup name).isSome ∧
    ∀ i < d, ∀ r, nest[i]? = some r → r.2.lookup name = none

/-- The distance of a name is that of the innermost scope that declares it. -/
theorem Nest.distance?_eq_some_iff {nest : Nest} {name : Token} {d : Nat} :
    Scope.distance? nest.scopes name = some d ↔
      ∃ region scope, nest.Declares name.lexeme d region scope := by
  unfold Scope.distance? Nest.Declares Nest.scopes
  rw [List.findIdx?_eq_some_iff_getElem]
  constructor
  · rintro ⟨hlt, hsome, hbefore⟩
    rw [List.length_map] at hlt
    refine ⟨nest[d].1, nest[d].2, by simp [List.getElem?_eq_getElem hlt], by simpa using hsome, ?_⟩
    intro i hi r hr
    obtain ⟨hlt', rfl⟩ := List.getElem?_eq_some_iff.mp hr
    have hnone := hbefore i hi
    rwa [List.getElem_map, Option.not_isSome_iff_eq_none] at hnone
  · rintro ⟨region, scope, hnest, hsome, hbefore⟩
    obtain ⟨hlt, heq⟩ := List.getElem?_eq_some_iff.mp hnest
    refine ⟨by simpa using hlt, by simpa [heq] using hsome, fun i hi => ?_⟩
    have hnone := hbefore i hi nest[i] (List.getElem?_eq_getElem _)
    simp [hnone]

/-- There is no distance if no scope declares the name. -/
theorem Nest.distance?_eq_none_iff {nest : Nest} {name : Token} :
    Scope.distance? nest.scopes name = none ↔ ∀ r ∈ nest, r.2.lookup name.lexeme = none := by
  unfold Scope.distance? Nest.scopes
  simp [List.findIdx?_eq_none_iff]

theorem Scope.mem_of_lookup {scope : Scope} {name : String} {defined : Bool}
    (h : scope.lookup name = some defined) : (name, defined) ∈ scope := by
  obtain ⟨before, after, rfl, -⟩ := List.lookup_eq_some_iff.mp h
  simp

namespace Survey

variable {S : Survey} {s : Store} {globals f : FrameId} {nest : Nest} {d : Nat} {m : Machine}
  {region : Region} {scope : Scope} {name : String}

/-- A scope has its frame as many links up as there are scopes inside it. -/
theorem Realizes.frameAbove? (h : S.Realizes s globals f nest)
    (hd : nest[d]? = some (region, scope)) :
    ∃ g, s.frameAbove? f d = some g ∧ S.Made region g ∧ (s.parent? g).isSome ∧
      ∀ n, (n, true) ∈ scope → s.binds g n := by
  induction nest generalizing f d with
  | nil => cases hd
  | cons r outer ih =>
    obtain ⟨hmade, hbinds, parent, hparent, houter⟩ := h
    cases d with
    | zero =>
      obtain rfl := Option.some.inj hd
      exact ⟨f, rfl, hmade, by simp [hparent], hbinds⟩
    | succ d =>
      obtain ⟨g, hg, hrest⟩ := ih houter hd
      exact ⟨g, by rw [Store.frameAbove?, hparent]; exact hg, hrest⟩

/-- A name that is declared but not defined is one whose initializer is under way. -/
theorem pending_of_not_mem (hsettled : Nest.Settled nest.tail)
    (hdeclares : nest.Declares name d region scope) (hundefined : (name, true) ∉ scope) :
    d = 0 ∧ scope.lookup name = some false := by
  obtain ⟨hnest, hdeclared, -⟩ := hdeclares
  obtain ⟨defined, hlookup⟩ := Option.isSome_iff_exists.mp hdeclared
  have hmem := Scope.mem_of_lookup hlookup
  cases nest with
  | nil => cases hnest
  | cons r outer =>
    cases d with
    | zero =>
      cases defined with
      | true => exact absurd hmem hundefined
      | false => exact ⟨rfl, hlookup⟩
    | succ d =>
      exact absurd (hsettled _ (List.mem_of_getElem? hnest) name defined hmem) hundefined

/-- What a declared name has at run time: the frame of its scope, which is not the global one and
    binds the name if the scope has defined it, and only then. -/
theorem Stands.resolve (h : S.Stands m nest) (hm : S.Consistent m)
    (hsettled : Nest.Settled nest.tail) (hdeclares : nest.Declares name d region scope) :
    ∃ g, m.store.frameAbove? m.environment d = some g ∧ g ≠ m.globals ∧ S.Made region g ∧
      (m.store.binds g name ↔ (name, true) ∈ scope) := by
  have hnest := hdeclares.1
  obtain ⟨g, hg, hmade, hparent, hbinds⟩ := h.realizes.frameAbove? hnest
  refine ⟨g, hg, ?_, hmade, ?_, hbinds name⟩
  · rintro rfl
    rw [hm.parent?_globals] at hparent
    cases hparent
  · intro hbound
    by_contra hundefined
    obtain ⟨rfl, -⟩ := pending_of_not_mem hsettled hdeclares hundefined
    obtain rfl := Option.some.inj hg
    cases nest with
    | nil => cases hnest
    | cons r outer =>
      obtain rfl := Option.some.inj hnest
      exact hundefined (h.defined _ rfl name hbound)

/-- A name that may be read is defined in the scope that declares it. -/
theorem mem_of_not_pending {name : Token} (hsettled : Nest.Settled nest.tail)
    (hpending : Scope.isPending nest.scopes name = false)
    (hdeclares : nest.Declares name.lexeme d region scope) : (name.lexeme, true) ∈ scope := by
  by_contra hundefined
  obtain ⟨rfl, hlookup⟩ := pending_of_not_mem hsettled hdeclares hundefined
  cases nest with
  | nil => cases hdeclares.1
  | cons r outer =>
    obtain rfl := Option.some.inj hdeclares.1
    simp [Scope.isPending, Nest.scopes, hlookup] at hpending

/-- Where scoping reports nothing, no name is read in its own initializer. -/
theorem Within.isPending_eq_false {ref : RefId} {name : Token} {references : List (RefId × Token)}
    (h : S.Within nest m ((Expr.var ref name).findings nest.scopes) references) :
    Scope.isPending nest.scopes name = false := by
  have hfaultless := (List.append_eq_nil_iff.mp h.faultless).1
  cases hpending : Scope.isPending nest.scopes name with
  | false => rfl
  | true => simp [hpending] at hfaultless

end Survey

end Lox

import Lox.Proofs.Grammar.Derivation

namespace Lox.Grammar

variable {ts vs : List Token} {c : Category} {s : Stmt Unit} {dangling : Bool}

/-- A derivation with the nearest `if` is one of all derivations. -/
theorem Category.Derives.weaken (h : c.Derives true ts s dangling) :
    c.Derives false ts s dangling := by
  induction h with
  | function hkeyword hname hopen hparams hlimit hseparated hclose hopenBrace _ hcloseBrace ih =>
    exact .function hkeyword hname hopen hparams hlimit hseparated hclose hopenBrace ih hcloseBrace
  | «variable» hkeyword h => exact .variable hkeyword h
  | statement _ ih => exact .statement ih
  | expression h hsemicolon => exact .expression h hsemicolon
  | print hkeyword h hsemicolon => exact .print hkeyword h hsemicolon
  | «return» hkeyword h hsemicolon => exact .return hkeyword h hsemicolon
  | block hopen _ hclose ih => exact .block hopen ih hclose
  | ifThen hkeyword hopen hcondition hclose _ ih =>
    exact .ifThen hkeyword hopen hcondition hclose ih
  | ifElse hkeyword hopen hcondition hclose _ _ helse _ ihthen ihother =>
    exact .ifElse hkeyword hopen hcondition hclose ihthen (by simp) helse ihother
  | «while» hkeyword hopen hcondition hclose _ ih =>
    exact .while hkeyword hopen hcondition hclose ih
  | «for» hkeyword hopen hfirst hcondition hsemicolon hincrement hclose _ ih =>
    exact .for hkeyword hopen hfirst hcondition hsemicolon hincrement hclose ih

/-- An `else` behind a statement that can take one goes to the innermost `if` that lacks it. -/
theorem Category.Derives.attach_else {keywordElse : Token} {s' : Stmt Unit} {dangling' : Bool}
    (h : c.Derives true ts s dangling) (hdangling : dangling = true)
    (helse : keywordElse.isKeyword .else)
    (hother : Category.statement.Derives true vs s' dangling') :
    ∃ tree dangling'', c.Derives true (ts ++ keywordElse :: vs) tree dangling'' := by
  induction h with
  | function | «variable» | expression | print | «return» | block => cases hdangling
  | statement _ ih =>
    obtain ⟨tree, dangling'', htree⟩ := ih hdangling
    exact ⟨tree, dangling'', .statement htree⟩
  | @ifThen _ _ _ _ _ _ _ inside hkeyword hopen hcondition hclose hthen ih =>
    simp only [List.cons_append, List.append_assoc]
    cases inside with
    | false =>
      exact ⟨_, _, .ifElse hkeyword hopen hcondition hclose hthen (fun _ => rfl) helse hother⟩
    | true =>
      obtain ⟨tree, dangling'', htree⟩ := ih rfl
      exact ⟨_, _, .ifThen hkeyword hopen hcondition hclose htree⟩
  | ifElse hkeyword hopen hcondition hclose hthen hnearest helse' _ _ ih =>
    simp only [List.cons_append, List.append_assoc]
    obtain ⟨tree, dangling'', htree⟩ := ih hdangling
    exact ⟨_, _, .ifElse hkeyword hopen hcondition hclose hthen hnearest helse' htree⟩
  | «while» hkeyword hopen hcondition hclose _ ih =>
    simp only [List.cons_append, List.append_assoc]
    obtain ⟨tree, dangling'', htree⟩ := ih hdangling
    exact ⟨_, _, .while hkeyword hopen hcondition hclose htree⟩
  | «for» hkeyword hopen hfirst hcondition hsemicolon hincrement hclose _ ih =>
    simp only [List.cons_append, List.append_assoc]
    obtain ⟨tree, dangling'', htree⟩ := ih hdangling
    exact ⟨_, _, .for hkeyword hopen hfirst hcondition hsemicolon hincrement hclose htree⟩

theorem exists_parts_nearest {parts : List Part}
    (h : ∀ part ∈ parts, ∃ tree dangling,
      Category.declaration.Derives true part.tokens tree dangling) :
    ∃ parts' : List Part, parts'.flatMap Part.tokens = parts.flatMap Part.tokens ∧
      ∀ part ∈ parts', Category.declaration.Derives true part.tokens part.tree part.dangling := by
  induction parts with
  | nil => exact ⟨[], rfl, by simp⟩
  | cons part others ih =>
    obtain ⟨tree, dangling, htree⟩ := h part (by simp)
    obtain ⟨parts', htokens, hparts⟩ := ih fun part hpart => h part (by simp [hpart])
    exact ⟨⟨part.tokens, tree, dangling⟩ :: parts', by simp [htokens],
      by simpa using ⟨htree, hparts⟩⟩

/-- What can be derived at all can be derived with the nearest `if`. -/
theorem Category.Derives.exists_nearest (h : c.Derives false ts s dangling) :
    ∃ tree dangling', c.Derives true ts tree dangling' := by
  induction h with
  | function hkeyword hname hopen hparams hlimit hseparated hclose hopenBrace _ hcloseBrace ih =>
    obtain ⟨parts', htokens, hparts⟩ := exists_parts_nearest ih
    rw [← htokens]
    exact ⟨_, _, .function hkeyword hname hopen hparams hlimit hseparated hclose hopenBrace hparts
      hcloseBrace⟩
  | «variable» hkeyword h => exact ⟨_, _, .variable hkeyword h⟩
  | statement _ ih =>
    obtain ⟨tree, dangling', htree⟩ := ih
    exact ⟨tree, dangling', .statement htree⟩
  | expression h hsemicolon => exact ⟨_, _, .expression h hsemicolon⟩
  | print hkeyword h hsemicolon => exact ⟨_, _, .print hkeyword h hsemicolon⟩
  | «return» hkeyword h hsemicolon => exact ⟨_, _, .return hkeyword h hsemicolon⟩
  | block hopen _ hclose ih =>
    obtain ⟨parts', htokens, hparts⟩ := exists_parts_nearest ih
    rw [← htokens]
    exact ⟨_, _, .block hopen hparts hclose⟩
  | ifThen hkeyword hopen hcondition hclose _ ih =>
    obtain ⟨tree, dangling', htree⟩ := ih
    exact ⟨_, _, .ifThen hkeyword hopen hcondition hclose htree⟩
  | ifElse hkeyword hopen hcondition hclose _ _ helse _ ihthen ihother =>
    obtain ⟨thenTree, inside, hthen⟩ := ihthen
    obtain ⟨otherTree, dangling', hother⟩ := ihother
    cases inside with
    | false =>
      exact ⟨_, _, .ifElse hkeyword hopen hcondition hclose hthen (fun _ => rfl) helse hother⟩
    | true =>
      obtain ⟨tree, dangling'', htree⟩ := hthen.attach_else rfl helse hother
      exact ⟨_, _, .ifThen hkeyword hopen hcondition hclose htree⟩
  | «while» hkeyword hopen hcondition hclose _ ih =>
    obtain ⟨tree, dangling', htree⟩ := ih
    exact ⟨_, _, .while hkeyword hopen hcondition hclose htree⟩
  | «for» hkeyword hopen hfirst hcondition hsemicolon hincrement hclose _ ih =>
    obtain ⟨tree, dangling', htree⟩ := ih
    exact ⟨_, _, .for hkeyword hopen hfirst hcondition hsemicolon hincrement hclose htree⟩

theorem DerivesProgram.weaken {program : List (Stmt Unit)} (h : DerivesProgram true ts program) :
    DerivesProgram false ts program := by
  obtain ⟨parts, rfl, rfl, hparts⟩ := h
  exact ⟨parts, rfl, rfl, fun part hpart => (hparts part hpart).weaken⟩

/-- Every program has a derivation that gives each `else` to the nearest `if`. -/
theorem DerivesProgram.exists_nearest {program : List (Stmt Unit)}
    (h : DerivesProgram false ts program) : ∃ program', DerivesProgram true ts program' := by
  obtain ⟨parts, rfl, rfl, hparts⟩ := h
  obtain ⟨parts', htokens, hparts'⟩ :=
    exists_parts_nearest fun part hpart => (hparts part hpart).exists_nearest
  exact ⟨_, parts', htokens.symm, rfl, hparts'⟩

end Lox.Grammar

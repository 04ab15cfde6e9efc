import Lox.Proofs.Execution.Grounding
import Lox.Proofs.Execution.Simulation
import Lox.Proofs.Scoping.Layered

/-!
Runs that differ by frames. Where one of two runs has a frame that the other lacks, nothing is ever
bound there, so a variable is found in corresponding frames although these lie at different
distances. Programs whose scopes lie side by side print the same and end with corresponding values
or with the same error. A run that enters blocks which the other lacks needs more fuel.
-/

namespace Lox

/-- The chain that has this level, if only one does. -/
def Level.side? : Level → Option Side
  | .both => none
  | .only side => some side

namespace Layered

/-- The runs of such programs are compared level by level. All names are the same, and the tables of
    distances are those of the two programs. -/
def comparison (P : Layered) : Comparison Level where
  side? := Level.side?
  naming _ := .plain
  token := Eq
  sameText := .of_eq
  named := Eq
  refs ref ref' entry entry' := P.first[ref]? = entry ∧ P.second[ref']? = entry'
  statements := P.Statements
  functions c l f f' := Layout.Aligned c ∧ l = .both ∧ f'.name = f.name ∧
    f'.parameters = f.parameters ∧ P.StatementsAll (.both :: c) f.body f'.body
  shared := by
    rintro _ _ _ _ ⟨-, rfl, -⟩
    rfl
  parameters := by
    rintro _ _ _ _ ⟨-, -, -, hparameters, -⟩
    rw [hparameters]
    exact List.forall₂_same.mpr fun _ _ => rfl
  body := by
    rintro _ _ _ _ ⟨-, rfl, -, -, hbody⟩
    exact hbody.forall₂
  before := ""

variable {P : Layered} {c b : Layout} {d d' : Nat} {w : Pairing Level}

/-- Where chains are aligned, the innermost level belongs to both. -/
theorem shared_of_aligned (hc : c.Aligned) : P.comparison.Shared c := by
  rintro (_ | side) hl
  · rfl
  · exact absurd (Option.mem_def.mp hl) (hc side)

/-- No frame renames its variables. -/
theorem innermost_comparison (c : Layout) : P.comparison.innermost c = .plain := by
  cases c <;> rfl

/-- Distances that meet among the scopes meet among the frames. -/
theorem meets_comparison (h : c.Meets d d') : ∃ b, P.comparison.Meets c d d' b := by
  induction h with
  | here hc => exact ⟨_, .here (shared_of_aligned hc)⟩
  | further hc _ ih =>
    obtain ⟨b, hmeets⟩ := ih
    exact ⟨b, .further (shared_of_aligned hc) hmeets⟩
  | first _ ih =>
    obtain ⟨b, hmeets⟩ := ih
    exact ⟨b, .first rfl hmeets⟩
  | second _ ih =>
    obtain ⟨b, hmeets⟩ := ih
    exact ⟨b, .second rfl hmeets⟩

/-- Errors that correspond are the same, since the tokens are. -/
theorem eq_of_errors {e e' : RuntimeError} (h : P.comparison.Errors e e') : e = e' := by
  cases h with
  | same htoken =>
    obtain rfl := htoken
    rfl
  | undefined hname =>
    obtain rfl := hname
    rfl

/-- References that lead to the same scope lead to corresponding variables. -/
theorem refers_of_references {ref ref' : RefId} {name name' : Token}
    (h : P.References c ref ref') (hname : name = name') :
    P.comparison.Refers c ref name ref' name' := by
  subst hname
  refine ⟨rfl, _, _, ⟨rfl, rfl⟩, ?_⟩
  unfold References at h
  generalize P.first[ref]? = entry, P.second[ref']? = entry' at h ⊢
  cases h with
  | none => exact .globals
  | some hmeets =>
    obtain ⟨b, hmeets⟩ := meets_comparison (P := P) hmeets
    refine .frame hmeets ?_
    rw [innermost_comparison]
    rfl

theorem expressions_of_alike {e e' : Expr RefId} (h : e.Alike Eq (P.References c) e') :
    P.comparison.Expressions c e e' :=
  h.related refers_of_references

/-- Statements that do the same have one form, or there is a block around the second. -/
theorem Statements.forms {wrapping : Bool} {s s' : Stmt RefId} (h : P.Statements wrapping c s s') :
    P.comparison.Forms c s s' ∨ wrapping = true ∧ P.comparison.Wraps c s s' := by
  have hinnermost {name : Token} : (P.comparison.innermost c).Same name.lexeme name.lexeme := by
    rw [innermost_comparison]
    rfl
  cases h with
  | expression h => exact .inl (.expression (expressions_of_alike h))
  | print h => exact .inl (.print (expressions_of_alike h))
  | declared hc => exact .inl (.declared (shared_of_aligned hc) hinnermost)
  | initialized hc h =>
    exact .inl (.initialized (shared_of_aligned hc) hinnermost (expressions_of_alike h))
  | block h => exact .inl (.block .both rfl h.forall₂)
  | ifThen hcondition hthen => exact .inl (.ifThen (expressions_of_alike hcondition) hthen)
  | ifElse hcondition hthen helse =>
    exact .inl (.ifElse (expressions_of_alike hcondition) hthen helse)
  | «while» hcondition hbody => exact .inl (.while (expressions_of_alike hcondition) hbody)
  | function hc hbody =>
    exact .inl (.function .both (shared_of_aligned hc) rfl hinnermost
      fun _ _ _ _ => ⟨hc, rfl, rfl, rfl, hbody⟩)
  | finished => exact .inl .finished
  | returned h => exact .inl (.returned (expressions_of_alike h))
  | wrapped _ h => exact .inr ⟨rfl, .only .second, _, rfl, rfl, h⟩

/-- Such programs do the same, if one of the runs has enough fuel. -/
theorem runs (P : Layered) (side : Side) (n' : Nat) : P.comparison.Runs (some side) n' := by
  refine P.comparison.runs (fun _ _ _ _ hs => ?_) n'
  exact hs.forms.imp_right fun h => ⟨Option.some_ne_none side, h⟩

/-- Whole programs print the same and end alike, if one of them has enough fuel. -/
theorem runProgram_steps {side : Side} {n n' : Nat} {ss ss' : List (Stmt RefId)}
    (h : P.StatementsAll c ss ss') (hlead : side.Leads 0 n n') :
    P.comparison.Steps (some side) w c (fun _ _ _ => True) (runProgram n ss)
      (runProgram n' ss') :=
  (runs P side n').runProgram hlead h.forall₂

/-- A machine corresponds to itself. It may have another table, which says the same of references
    that are in use. -/
theorem machines_same {m : Machine} {first : RefId} (hm : m.Sound first)
    (hagree : ∀ ref < first, P.first[ref]? = P.second[ref]?) :
    P.comparison.Machines (.same m.store.next) [] { m with distances := P.first }
      { m with distances := P.second } := by
  refine Comparison.machines_same hm (fun f name k hread => ?_) id rfl
  have hbody : P.StatementsAll [.both] k.body k.body :=
    statementsAll_same Layout.Even.nil.both k.body fun r hr =>
      hagree r.1 (hm.references f name k hread r hr)
  exact ⟨rfl, rfl, [], .both, ⟨rfl, rfl, hm.frame_lt f name k hread⟩, Layout.aligned_nil, rfl, rfl,
    rfl, hbody⟩

end Layered

end Lox

import Mathlib
import Lox.Command
import Lox.Proofs.Execution.Silence
import Lox.Proofs.Session.Respelling
import Lox.Proofs.Session.Termination

namespace Lox

namespace Reader

variable {position : Position} {cs : List Char} {ts : List Token}

/-- Blanks in front do not change what is read. -/
theorem Accepts.cons_blank {c : Char} (h : Accepts (position.past [c]) cs ts)
    (hblank : Lexeme.isBlank c) : Accepts position (c :: cs) ts := by
  have hslash : c ≠ '/' := by
    rintro rfl
    exact absurd hblank (by decide)
  have hsplit : Lexeme.splitTrivia false (c :: cs) =
      (c :: (Lexeme.splitTrivia false cs).1, (Lexeme.splitTrivia false cs).2) := by
    rw [Lexeme.splitTrivia, if_pos (by simpa using hblank)]
    · rfl
    · exact fun _ _ heq => absurd heq hslash
  cases h with
  | nil htrivia =>
    rw [htrivia] at hsplit
    exact .nil hsplit
  | @cons _ _ trivia _ _ _ _ htrivia hitem hrest =>
    rw [htrivia] at hsplit
    have hposition : (position.past [c]).past trivia = position.past (c :: trivia) :=
      (position.past_append [c] trivia).symm
    rw [hposition] at hitem hrest
    exact .cons hsplit hitem hrest

end Reader

/-- No name is declared outside all scopes, so there is nothing to find and nothing to report. -/
theorem Expr.findings_nil : (e : Expr RefId) → e.findings [] = .none
  | .literal _ => rfl
  | .grouping inner => inner.findings_nil
  | .unary _ operand => operand.findings_nil
  | .binary left _ right | .logical left _ right => by
    rw [Expr.findings, left.findings_nil, right.findings_nil]
    rfl
  | .var ref name => rfl
  | .assign ref name value => by
    rw [Expr.findings, value.findings_nil]
    rfl
  | .call callee _ arguments => by
    have hall : ∀ es : List (Expr RefId), (∀ e ∈ es, e.findings [] = .none) →
        Expr.findingsAll [] es = .none := by
      intro es hes
      induction es with
      | nil => rfl
      | cons e es ih =>
        obtain ⟨hfirst, hrest⟩ := List.forall_mem_cons.mp hes
        rw [Expr.findingsAll, hfirst, ih hrest]
        rfl
    rw [Expr.findings, callee.findings_nil, hall arguments fun e he => e.findings_nil]
    rfl

namespace Session

/-- The program that prints the value of an expression. -/
def printing (source : String) : String :=
  "print " ++ source ++ "\n" ++ ";"

/-- What stands in front of the expression there. -/
def printLead : List Char := "print ".toList

variable {source : String} {e : Expr Unit} {ts : List Token}

/-- The program has the expression between a keyword and a line break. -/
theorem toList_printing (source : String) :
    (printing source).toList = printLead ++ (source.toList ++ '\n' :: [';']) := by
  simp [printing, printLead]

/-- The tokens of the expression are read there as well, between the keyword and the semicolon. -/
theorem accepts_printing (h : Reader.Accepts ⟨1, 0⟩ source.toList ts) :
    ∃ keyword semicolon : Token, keyword.isKeyword .print ∧ semicolon.isPunct .semicolon ∧
      Reader.Accepts ⟨1, 0⟩ (printing source).toList
        (keyword :: (ts.map (Token.behind printLead) ++ [semicolon])) := by
  let position := (Position.past ⟨1, 0⟩ printLead).past (source.toList ++ ['\n'])
  have hsemicolon : Reader.Accepts position [';']
      [⟨.punct .semicolon, ";", position.line, position.offset⟩] :=
    .cons rfl rfl (.nil rfl)
  have hmoved := (h.behind printLead).append_newline hsemicolon
  refine ⟨⟨.keyword .print, "print", 1, 0⟩,
    ⟨.punct .semicolon, ";", position.line, position.offset⟩, rfl, rfl, ?_⟩
  have hlead : Lexeme.splitTrivia false (printLead ++ (source.toList ++ '\n' :: [';'])) =
      ([], printLead ++ (source.toList ++ '\n' :: [';'])) := rfl
  rw [toList_printing]
  exact .cons hlead rfl (hmoved.cons_blank rfl)

/-- An expression is accepted where its text and its grammar have no errors. -/
theorem eq_nil_and_tree_of_accepted? (h : (SoleExpression.ofSource source).accepted? = some e) :
    (Tokens.ofString source).errors = [] ∧
      (Grammar.wholeExpression (Tokens.ofString source).tokens).errors = [] ∧
      (Grammar.wholeExpression (Tokens.ofString source).tokens).result = some e := by
  unfold SoleExpression.accepted? at h
  split at h
  · rename_i hfaults
    rw [List.isEmpty_iff] at hfaults
    obtain ⟨hlexical, hgrammatical⟩ := List.append_eq_nil_iff.mp hfaults
    exact ⟨List.map_eq_nil_iff.mp hlexical, List.map_eq_nil_iff.mp hgrammatical, h⟩
  · cases h

/-- The program is read without faults. It prints the same expression, but for the places of its
    tokens. -/
theorem exists_printed (h : (SoleExpression.ofSource source).accepted? = some e) :
    ∃ e', (Tokens.ofString (printing source)).errors = [] ∧
      (Grammar.program (Tokens.ofString (printing source)).tokens).errors = [] ∧
      statementsOf (printing source) = [.print e'] ∧
      e.Alike (fun t t' => t' = t.behind printLead) (fun _ _ => True) e' := by
  obtain ⟨hlexical, hgrammatical, htree⟩ := eq_nil_and_tree_of_accepted? h
  obtain ⟨ts, last, htokens, hfree, hlast, haccepts⟩ := Tokens.exists_accepts hlexical
  rw [htokens] at hgrammatical htree
  obtain ⟨e₁, he₁, hderives⟩ := Grammar.wholeExpression_sound hfree hlast hgrammatical
  obtain rfl : e₁ = e := Option.some.inj (he₁.symm.trans htree)
  obtain ⟨e', hderives', halike⟩ := hderives.relocate (g := Token.behind printLead)
    (R := fun t t' => t' = t.behind printLead) (fun _ => ⟨rfl, rfl⟩) fun _ _ => rfl
  obtain ⟨keyword, semicolon, hkeyword, hsemicolon, haccepts'⟩ := accepts_printing haccepts
  obtain ⟨last', hlast', hread⟩ := haccepts'.ofItems (Nat.lt_succ_self _)
  have hread' : Tokens.ofString (printing source) =
      ⟨keyword :: (ts.map (Token.behind printLead) ++ [semicolon]) ++ [last'], []⟩ := hread
  have hprogram : Grammar.DerivesProgram true
      (keyword :: (ts.map (Token.behind printLead) ++ [semicolon])) [.print e'] := by
    have hprint : Grammar.Category.Derives true .statement _ (.print e') false :=
      .print hkeyword hderives' hsemicolon
    exact ⟨[⟨_, .print e', false⟩], (List.append_nil _).symm, rfl,
      List.forall_mem_singleton.mpr (.statement hprint)⟩
  have hcomplete := Grammar.program_complete hprogram hlast'
  refine ⟨e', by rw [hread'], ?_, ?_, halike⟩
  · rw [hread', hcomplete]
  · rw [statementsOf, hread', hcomplete]

theorem primitive_start (reading : Nat → Float) : (Machine.start reading).Primitive := by
  intro f name value hread
  rw [eq_clock_of_read?_start hread]
  nofun

/-- How the expression corresponds to the one that is printed, where every name is global. -/
def printed : Parallel where
  token t t' := t' = t.behind printLead
  sameText := by
    rintro t _ rfl
    exact ⟨rfl, rfl⟩
  named t t' := t' = t.behind printLead
  refs ref ref' entry := ref' = ref ∧ entry = none
  before := ""

variable {e' : Expr Unit} {reading : Nat → Float} {fuel : Nat}

/-- An expression and its copy in the program have the same values and the same errors. -/
theorem results_printed (h : e.Alike (fun t t' => t' = t.behind printLead) (fun _ _ => True) e')
    (fuel : Nat) (reading : Nat → Float) :
    printed.comparison.Results (.same 1) [] printed.comparison.Values none
      (evaluate fuel (e.number 0).1 (.start reading))
      (evaluate fuel (e'.number 0).1 (.start reading)) := by
  have hpaired : Paired printed.Refs (e.number 0).2 0 0 := fun _ _ => ⟨none, rfl, rfl⟩
  have hexpressions : printed.Expressions [] (e.number 0).1 (e'.number 0).1 :=
    Parallel.expressions_of_alike (h.number hpaired (Nat.le_refl _)).1 (by simp) fun _ _ h => h
  refine (printed.runs fuel).evaluate fuel rfl _ _ _ _ (Parallel.Expressions.compared hexpressions)
    _ _ (Comparison.machines_start reading ?_ rfl)
  rintro ref _ entry _ ⟨⟨rfl, rfl⟩, rfl⟩
  exact ⟨rfl, rfl⟩

/-- Both have the same value and have printed nothing, or they fail with the same problem on the
    same line. -/
inductive SameEnd :
    EStateM.Result Stop Machine Value → EStateM.Result Stop Machine Value → Prop
  | ok {value : Value} {m m' : Machine} (houtput : m'.output = "") :
      SameEnd (.ok value m) (.ok value m')
  | error {t t' : Token} {problem : RuntimeProblem} {m m' : Machine} (hline : t'.line = t.line)
      (houtput : m'.output = "") :
      SameEnd (.error (.error ⟨t, problem⟩) m) (.error (.error ⟨t', problem⟩) m')
  | outOfFuel {m m' : Machine} : SameEnd (.error .outOfFuel m) (.error .outOfFuel m')

/-- Both evaluations end in the same way. -/
theorem sameEnd_printed (h : e.Alike (fun t t' => t' = t.behind printLead) (fun _ _ => True) e')
    (fuel : Nat) (reading : Nat → Float) :
    SameEnd (evaluate fuel (e.number 0).1 (.start reading))
      (evaluate fuel (e'.number 0).1 (.start reading)) := by
  have hresults := results_printed h fuel reading
  have hsilent := silent_evaluate fuel (e'.number 0).1 _ (primitive_start reading)
  generalize evaluate fuel (e.number 0).1 (.start reading) = result at hresults ⊢
  generalize evaluate fuel (e'.number 0).1 (.start reading) = result' at hresults hsilent ⊢
  have hline {t t' : Token} (ht : t' = t.behind printLead) : t'.line = t.line := by
    rw [ht]
    rfl
  cases hresults with
  | ok _ hvalue _ =>
    cases hsilent with
    | ok hprimitive _ houtput =>
      cases hvalue with
      | plain => exact .ok houtput
      | function => exact absurd rfl (hprimitive _)
  | error _ herror _ =>
    cases hsilent with
    | error _ houtput =>
      cases herror with
      | same ht => exact .error (hline ht) houtput
      | @undefined t t' ht =>
        have hlexeme : t'.lexeme = t.lexeme := by
          rw [show t' = t.behind printLead from ht]
          rfl
        rw [hlexeme]
        exact .error (hline ht) houtput
  | outOfFuel => exact .outOfFuel

/-- Outside all scopes nothing is learned. -/
theorem loaded_printed (reading : Nat → Float) (e' : Expr Unit) :
    (start reading).loaded [.print e'] = .start reading := by
  have hfindings : findingsOf (Stmt.numberAll (start reading).next [.print e']).1 = .none := by
    rw [Stmt.numberAll, Stmt.number, findingsOf, Stmt.findingsAll, Stmt.findings]
    dsimp only
    rw [Expr.findings_nil]
    rfl
  rw [loaded, hfindings]
  rfl

/-- The program prints the value of its expression, or fails as the expression does. -/
theorem run?_printed (haccepted : ((start reading).analysis (printing source)).faults = [])
    (hstatements : statementsOf (printing source) = [.print e']) (fuel : Nat) :
    (start reading).run? (fuel + 1) (printing source) =
      match evaluate fuel (e'.number 0).1 (.start reading) with
      | .ok value m => some (⟨.success, m.output ++ value.text ++ "\n"⟩,
          ⟨{ m with output := m.output ++ value.text ++ "\n" }, (e'.number 0).2, false⟩)
      | .error (.error e) m => some (⟨.runtimeError e, m.output⟩, ⟨m, (e'.number 0).2, true⟩)
      | .error .outOfFuel _ => none := by
  have hnumbered : (Stmt.numberAll (start reading).next [.print e']).1 =
      [.print (e'.number 0).1] := rfl
  rw [run?_eq_perform? haccepted, hstatements, perform?, loaded_printed, hnumbered, runProgram,
    Step.bind_apply, execute, Step.bind_apply]
  cases evaluate fuel (e'.number 0).1 (.start reading) with
  | ok value m => rfl
  | error stop m => cases stop <;> rfl

/-- The program is accepted, and scoping finds nothing in it. -/
theorem accepted_printed (hlexical : (Tokens.ofString (printing source)).errors = [])
    (hgrammatical : (Grammar.program (Tokens.ofString (printing source)).tokens).errors = [])
    (hstatements : statementsOf (printing source) = [.print e']) :
    (Analysis.ofSource 0 (printing source)).faults = [] ∧
      (Analysis.ofSource 0 (printing source)).findings = .none := by
  have hfindings : findingsOf (Stmt.numberAll 0 (statementsOf (printing source))).1 = .none := by
    rw [hstatements, Stmt.numberAll, Stmt.number, findingsOf, Stmt.findingsAll, Stmt.findings]
    dsimp only
    rw [Expr.findings_nil]
    rfl
  have herrors := congrArg Findings.errors hfindings
  exact ⟨faults_ofSource_eq_nil_iff.mpr ⟨hlexical, hgrammatical, herrors⟩,
    (findings_analysis (start fun _ => 0) (printing source)).trans hfindings⟩

/-- An expression on its own comes to an end. -/
theorem exists_answer_evaluateAlone? (e : Expr Unit) (reading : Nat → Float) :
    ∃ bound, ∀ fuel ≥ bound, evaluateAlone? fuel reading e ≠ none := by
  obtain ⟨result, hends, bound, hresult⟩ :=
    (loopFree_start reading).machine.terminates_evaluate (e.number 0).1
  refine ⟨bound, fun fuel hfuel => ?_⟩
  have hevaluate : evaluate fuel (e.number 0).1 (.start reading) = result := hresult fuel hfuel
  rw [evaluateAlone?, hevaluate]
  cases result with
  | ok value m => nofun
  | error stop m =>
    cases stop with
    | error e => nofun
    | outOfFuel => exact absurd rfl (hends m)

/-- The same answer from an expression on its own and from the program that prints it: the text of
    the value and a line break, or the same problem on the same line. -/
inductive SameAnswer :
    Option (Except RuntimeError Value) → Option (Answer × Session) → Prop
  | value {value : Value} {s : Session} :
      SameAnswer (some (.ok value)) (some (⟨.success, value.text ++ "\n"⟩, s))
  | error {t t' : Token} {problem : RuntimeProblem} {s : Session} (hline : t'.line = t.line) :
      SameAnswer (some (.error ⟨t, problem⟩)) (some (⟨.runtimeError ⟨t', problem⟩, ""⟩, s))
  | outOfFuel : SameAnswer none none

/-- With one unit of fuel more, the program gives the answer of its expression. -/
theorem sameAnswer_printed
    (h : e.Alike (fun t t' => t' = t.behind printLead) (fun _ _ => True) e')
    (haccepted : ((start reading).analysis (printing source)).faults = [])
    (hstatements : statementsOf (printing source) = [.print e']) :
    SameAnswer (evaluateAlone? fuel reading e)
      ((start reading).run? (fuel + 1) (printing source)) := by
  have hsame := sameEnd_printed h fuel reading
  rw [run?_printed haccepted hstatements, evaluateAlone?]
  generalize evaluate fuel (e.number 0).1 (.start reading) = result at hsame ⊢
  generalize evaluate fuel (e'.number 0).1 (.start reading) = result' at hsame ⊢
  cases hsame with
  | ok houtput =>
    dsimp only
    rw [houtput, String.empty_append]
    exact .value
  | error hline houtput =>
    dsimp only
    rw [houtput]
    exact .error hline
  | outOfFuel => exact .outOfFuel

/-- The two commands write the same. -/
theorem ofRun?_printing (h : (SoleExpression.ofSource source).accepted? = some e)
    (hsame : SameAnswer (evaluateAlone? fuel reading e)
      ((start reading).run? (fuel + 1) (printing source))) :
    Command.ofRun? (fuel + 1) reading (printing source) = Command.ofValue? fuel reading source := by
  rw [Command.ofRun?, Command.ofValue?, h]
  dsimp only
  generalize evaluateAlone? fuel reading e = alone at hsame ⊢
  generalize (start reading).run? (fuel + 1) (printing source) = answer at hsame ⊢
  cases hsame with
  | value => simp [Outcome.exitCode, Outcome.faults, faultLines, lines, String.join]
  | error hline =>
    simp [Outcome.exitCode, Outcome.faults, faultLines, lines, Fault.message, hline]
  | outOfFuel => rfl

/-- A source that is a single expression without errors can be printed: behind a `print` and in
    front of a semicolon on a line of its own it is an accepted program, and scoping finds no
    distances in it. The program prints that expression, and evaluating the expression where the
    program runs gives the value that it has on its own. With one unit of fuel for the statement
    around it, the program gives the same answer as the expression on its own, so that the two
    commands write the same; and there is an answer. -/
theorem evaluate_eq_print (reading : Nat → Float)
    (h : (SoleExpression.ofSource source).accepted? = some e) :
    (Analysis.ofSource 0 (printing source)).faults = [] ∧
      (Analysis.ofSource 0 (printing source)).findings = .none ∧
      (∃ e', (Analysis.ofSource 0 (printing source)).program = [.print e'] ∧
        ∀ fuel, SameEnd (evaluate fuel (e.number 0).1 (.start reading))
          (evaluate fuel e' (.start reading))) ∧
      (∀ fuel, SameAnswer (evaluateAlone? fuel reading e)
          ((start reading).run? (fuel + 1) (printing source)) ∧
        Command.ofRun? (fuel + 1) reading (printing source) =
          Command.ofValue? fuel reading source) ∧
      ∃ bound, ∀ fuel ≥ bound, evaluateAlone? fuel reading e ≠ none := by
  obtain ⟨e', hlexical, hgrammatical, hstatements, halike⟩ := exists_printed h
  obtain ⟨haccepted, hfindings⟩ := accepted_printed hlexical hgrammatical hstatements
  have hprogram : (Analysis.ofSource 0 (printing source)).program = [.print (e'.number 0).1] :=
    congrArg (fun ss => (Stmt.numberAll 0 ss).1) hstatements
  refine ⟨haccepted, hfindings, ⟨_, hprogram, fun fuel => sameEnd_printed halike fuel reading⟩,
    fun fuel => ?_, exists_answer_evaluateAlone? e reading⟩
  have hsame : SameAnswer (evaluateAlone? fuel reading e)
      ((start reading).run? (fuel + 1) (printing source)) :=
    sameAnswer_printed halike haccepted hstatements
  exact ⟨hsame, ofRun?_printing h hsame⟩

/-- A string over two lines, an error on the second of them, and a comment without an end. -/
def brokenLines : String :=
  "(\"a\nb\" == nil) == -nil // ;"

def brokenTree : Expr Unit :=
  .binary
    (.grouping (.binary (.literal (.string "a\nb")) ⟨.punct .equalEqual, "==", 2, 7⟩
      (.literal .nil)))
    ⟨.punct .equalEqual, "==", 2, 15⟩ (.unary ⟨.punct .minus, "-", 2, 18⟩ (.literal .nil))

/-- An expression that fails on its second line fails there in the program as well. -/
theorem evaluate_eq_print_brokenLines :
    (SoleExpression.ofSource brokenLines).accepted? = some brokenTree ∧
      ∃ t s, t.line = 2 ∧ evaluateAlone? 4 (fun _ => 0) brokenTree =
          some (.error ⟨⟨.punct .minus, "-", 2, 18⟩, .operandNotNumber⟩) ∧
        (start fun _ => 0).run? 5 (printing brokenLines) =
          some (⟨.runtimeError ⟨t, .operandNotNumber⟩, ""⟩, s) := by
  have haccepted : (SoleExpression.ofSource brokenLines).accepted? = some brokenTree := by
    cbv
  have hanswer : evaluateAlone? 4 (fun _ => 0) brokenTree =
      some (.error ⟨⟨.punct .minus, "-", 2, 18⟩, .operandNotNumber⟩) := by
    rfl
  refine ⟨haccepted, ?_⟩
  -- From here on the source is only a name: nothing must read it again.
  generalize brokenLines = source at haccepted ⊢
  obtain ⟨-, -, -, hsame, -⟩ := evaluate_eq_print (fun _ => 0) haccepted
  obtain ⟨hsame, -⟩ := hsame 4
  rw [hanswer] at hsame
  generalize (start fun _ => 0).run? 5 (printing source) = answer at hsame ⊢
  cases hsame with
  | error hline => exact ⟨_, _, hline, hanswer, rfl⟩

end Session

end Lox

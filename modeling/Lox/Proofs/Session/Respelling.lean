import Mathlib
import Lox.Proofs.Execution.Respelling
import Lox.Proofs.Grammar.Respelling
import Lox.Proofs.Session.Joining

namespace Lox

/-- Runs that end in corresponding ways. -/
inductive Parallel.Ends (P : Parallel) : Outcome → Outcome → Prop
  | success : P.Ends .success .success
  | runtimeError {e e' : RuntimeError} (h : P.comparison.Errors e e') :
      P.Ends (.runtimeError e) (.runtimeError e')

/-- Tokens that stand at the same place of two programs of one shape: what is true of the tokens at
    each place is true of them. -/
def Opposite (ss ss' : List (Stmt Unit)) (t t' : Token) : Prop :=
  ∀ R : Token → Token → Prop, Stmt.AlikeAll R (fun _ _ => True) ss ss' → R t t'

/-- The same outcome of two programs of one shape. An error is at the same place and on the same
    line, and says the same unless a respelled variable is undefined. -/
inductive Respelling.SameOutcome (r : Respelling) (ss ss' : List (Stmt Unit)) :
    Outcome → Outcome → Prop
  | success : r.SameOutcome ss ss' .success .success
  | runtimeError {t t' : Token} {problem : RuntimeProblem} (hplace : Opposite ss ss' t t')
      (hspot : t.SameSpot t') :
      r.SameOutcome ss ss' (.runtimeError ⟨t, problem⟩) (.runtimeError ⟨t', problem⟩)
  | undefined {t t' : Token} (hplace : Opposite ss ss' t t') (hline : t'.line = t.line)
      (hold : t.lexeme = r.old) (hnew : t'.lexeme = r.new) :
      r.SameOutcome ss ss' (.runtimeError ⟨t, .undefined r.old⟩)
        (.runtimeError ⟨t', .undefined r.new⟩)

namespace Session

/-- The same tree, but for the bytes at which its tokens stand, in a source whose text has no
    faults. -/
structure Spells (source : String) (ss : List (Stmt Unit)) : Prop where
  lexical : (Tokens.ofString source).errors = []
  grammatical : (Grammar.program (Tokens.ofString source).tokens).errors = []
  alike : Stmt.AlikeAll Token.SameSpot (fun _ _ => True) ss (statementsOf source)

variable {s : Session} {ss ss' ss'' : List (Stmt Unit)} {source source' : String} {r : Respelling}

section Spelling

/-- A program reads no name that its source does not spell. -/
theorem avoidsAll_statementsOf {new : String} (h : (Analysis.ofSource 0 source).faults = [])
    (hnew : ∀ t ∈ (Tokens.ofString source).tokens, t.lexeme ≠ new) :
    Stmt.AvoidsAll new (statementsOf source) := by
  obtain ⟨ts, hts, -, hmarked⟩ := exists_reading h
  obtain ⟨-, halike⟩ := hmarked (fun t => t) fun _ => ⟨rfl, rfl⟩
  rw [markedStatements_id] at halike
  refine halike.mono ?_ fun _ _ _ => trivial
  rintro _ t ⟨ht, rfl⟩
  exact ⟨rfl, hnew t (hts ht)⟩

/-- The program of an accepted source can be spelled with respelled tokens. -/
theorem exists_spells (h : (Analysis.ofSource 0 source).faults = [])
    (halike : Stmt.AlikeAll r.Respells (fun _ _ => True) (statementsOf source) ss') :
    ∃ source', Spells source' ss' := by
  obtain ⟨ts, -, haccepts, hmarked⟩ := exists_reading h
  obtain ⟨hderives, hself⟩ := hmarked (fun t => t) fun _ => ⟨rfl, rfl⟩
  rw [markedStatements_id] at hderives hself
  rw [List.map_id'] at hderives
  have hrenamed : Stmt.AlikeAll (Token.Renamed r.new) (fun _ _ => True) (statementsOf source)
      ss' := by
    refine (hself.common halike).mono ?_ fun _ _ _ => trivial
    rintro _ t' ⟨t, ⟨ht, rfl⟩, hrespells⟩
    exact haccepts.renamed ht hrespells
  have hreplaces : Grammar.Replaces (Token.Renamed r.new) := by
    refine ⟨?_, fun _ => .inl rfl⟩
    rintro t t' (rfl | ⟨-, rfl⟩) <;> rfl
  obtain ⟨ts', hts, hderives'⟩ := hderives.replace hreplaces hrenamed
  -- The respelled tokens are read back from a text of their own, where other offsets are theirs.
  obtain ⟨cs', offsets, -, haccepts'⟩ := haccepts.respelled r.isIdentifier_new hts rfl
  have hshifted : ∀ t : Token, t.SameSpot (t.shifted offsets) := fun t => ⟨⟨rfl, rfl⟩, rfl⟩
  obtain ⟨ss'', hderives'', halike'⟩ := hderives'.relocate (g := Token.shifted offsets)
    (R := Token.SameSpot) (fun t => (hshifted t).toSameText) fun t _ => hshifted t
  obtain ⟨last, hlast, htokens⟩ := haccepts'.ofItems (Nat.lt_succ_self _)
  have hread : Tokens.ofString (String.ofList cs') =
      ⟨ts'.map (Token.shifted offsets) ++ [last], []⟩ := by
    rw [Tokens.ofString, readItems, Reader.ofString, String.toList_ofList, htokens]
  have hprogram := Grammar.program_complete hderives'' hlast
  refine ⟨String.ofList cs', ?_, ?_, ?_⟩
  · rw [hread]
  · rw [hread, hprogram]
  · rw [statementsOf, hread, hprogram]
    exact halike'

end Spelling

section Running

/-! Two programs with the same references, run in sessions of their own. -/

/-- How the programs correspond, where `table` has the distances of their references. -/
def beside (table : Distances) (token named : Token → Token → Prop)
    (hsame : ∀ t t', token t t' → t.SameText t') : Parallel where
  token := token
  sameText := hsame
  named := named
  refs ref ref' entry := ref' = ref ∧ table[ref]? = entry
  before := ""

variable {token named : Token → Token → Prop} {hsame : ∀ t t', token t t' → t.SameText t'}
  {reading : Nat → Float}

/-- Programs with the same distances and related trees have related results. -/
theorem results_of_statements
    (hdistances : (findingsOf (Stmt.numberAll (start reading).next ss').1).distances =
      (findingsOf (Stmt.numberAll (start reading).next ss).1).distances)
    (hstatements : (beside ((start reading).loaded ss).distances token named hsame).StatementsAll []
      (Stmt.numberAll (start reading).next ss).1 (Stmt.numberAll (start reading).next ss').1)
    (fuel : Nat) :
    (beside ((start reading).loaded ss).distances token named hsame).comparison.Results (.same 1) []
      (fun _ _ _ => True) none
      (runProgram fuel (Stmt.numberAll (start reading).next ss).1 ((start reading).loaded ss))
      (runProgram fuel (Stmt.numberAll (start reading).next ss').1
        ((start reading).loaded ss')) := by
  refine Parallel.runProgram_steps hstatements fuel _ _ (Comparison.machines_start reading ?_ rfl)
  rintro ref _ entry _ ⟨⟨rfl, hentry⟩, rfl⟩
  refine ⟨hentry, ?_⟩
  rw [hdistances]
  exact hentry

/-- Such programs end both or neither, and in the same way. -/
theorem perform?_of_statements
    (hdistances : (findingsOf (Stmt.numberAll (start reading).next ss').1).distances =
      (findingsOf (Stmt.numberAll (start reading).next ss).1).distances)
    (hstatements : (beside ((start reading).loaded ss).distances token named hsame).StatementsAll []
      (Stmt.numberAll (start reading).next ss).1 (Stmt.numberAll (start reading).next ss').1)
    (fuel : Nat) :
    Option.Rel (fun p q => q.1.output = p.1.output ∧
        (beside ((start reading).loaded ss).distances token named hsame).Ends p.1.outcome
          q.1.outcome)
      ((start reading).perform? fuel ss) ((start reading).perform? fuel ss') := by
  have hresults := results_of_statements hdistances hstatements fuel
  rw [Session.perform?, Session.perform?]
  generalize runProgram fuel _ ((start reading).loaded ss) = result at hresults ⊢
  generalize runProgram fuel _ ((start reading).loaded ss') = result' at hresults ⊢
  cases hresults with
  | ok _ _ hm => exact .some ⟨hm.output.trans (String.empty_append ..), .success⟩
  | error _ herror hm =>
    exact .some ⟨hm.output.trans (String.empty_append ..), .runtimeError herror⟩
  | outOfFuel => exact .none

/-- Such programs print the same, also when they are cut off. -/
theorem printout_of_statements
    (hdistances : (findingsOf (Stmt.numberAll (start reading).next ss').1).distances =
      (findingsOf (Stmt.numberAll (start reading).next ss).1).distances)
    (hstatements : (beside ((start reading).loaded ss).distances token named hsame).StatementsAll []
      (Stmt.numberAll (start reading).next ss).1 (Stmt.numberAll (start reading).next ss').1)
    (fuel : Nat) : (start reading).printout fuel ss' = (start reading).printout fuel ss :=
  (results_of_statements hdistances hstatements fuel).output.trans (String.empty_append ..)

/-- How a program corresponds to one that is spelled with other names, where this is what is known
    of the tokens at each place. -/
def respelling (r : Respelling) (R : Token → Token → Prop) (table : Distances) : Parallel :=
  beside table (fun t t' => R t t' ∧ t.SameSpot t')
    (fun t t' => R t t' ∧ ∃ u, r.Respells t u ∧ u.SameSpot t') fun _ _ h => h.2.toSameText

/-- A program, its respelling and every spelling of that are related by the respelling. -/
theorem statements_respelling {R : Token → Token → Prop} (hrespelled : Stmt.RespelledAll r ss ss')
    (havoids : Stmt.AvoidsAll r.new ss)
    (hspelled : Stmt.AlikeAll Token.SameSpot (fun _ _ => True) ss' ss'')
    (hplaces : Stmt.AlikeAll R (fun _ _ => True) ss ss'') (reading : Nat → Float) :
    (respelling r R ((start reading).loaded ss).distances).StatementsAll []
      (Stmt.numberAll (start reading).next ss).1 (Stmt.numberAll (start reading).next ss'').1 := by
  let P := beside ((start reading).loaded ss).distances Eq r.Respells fun _ _ => .of_eq
  have hallows : P.Allows r [] := by
    refine ⟨List.forall_mem_nil _, fun _ => rfl, ?_, fun _ => .inr rfl⟩
    rintro t _ rfl
    exact .inl rfl
  have hentered : P.Entered (Stmt.placesAll [] (Stmt.numberAll (start reading).next ss).1).1 :=
    fun p hp reference hreference =>
      ⟨rfl, getElem?_learn (fun _ _ => Std.TreeMap.getElem?_emptyc) hp hreference⟩
  have hstatements := Parallel.statementsAll_respelled hallows
    (hrespelled.number (start reading).next).1 (havoids.number _) hentered
  have hcomposes : P.Composes Token.SameSpot R
      (respelling r R ((start reading).loaded ss).distances) := by
    refine ⟨fun h => h.toSameText, ?_, fun hnamed hspot hR => ⟨hR, _, hnamed, hspot⟩, fun h => h⟩
    rintro t _ t' rfl hspot hR
    exact ⟨hR, hspot⟩
  refine hstatements.compose hcomposes ?_ ?_
  · exact (alike_numberAll hspelled _).1.mono (fun _ _ h => h) fun _ _ href => href.1
  · exact (alike_numberAll hplaces _).1.mono (fun _ _ h => h) fun _ _ _ => trivial

/-- The errors of related runs stand at related tokens. -/
theorem place_of_errors {R : Token → Token → Prop} {table : Distances} {e e' : RuntimeError}
    (h : (respelling r R table).comparison.Errors e e') : R e.token e'.token := by
  cases h with
  | same htoken => exact htoken.1
  | undefined hname => exact hname.1

/-- Outcomes that are related for every relation of tokens are the same up to the respelling. -/
theorem sameOutcome_of_ends {table : Distances} {outcome outcome' : Outcome}
    (halike : Stmt.AlikeAll (fun _ _ => True) (fun _ _ => True) ss ss')
    (h : ∀ R, Stmt.AlikeAll R (fun _ _ => True) ss ss' →
      (respelling r R table).Ends outcome outcome') : r.SameOutcome ss ss' outcome outcome' := by
  cases h _ halike with
  | success => exact .success
  | @runtimeError e e' herror =>
    have hplace : Opposite ss ss' e.token e'.token := by
      intro R hR
      cases h R hR with
      | runtimeError herror => exact place_of_errors herror
    cases herror with
    | same htoken => exact .runtimeError hplace htoken.2
    | @undefined t t' hname =>
      obtain ⟨-, u, hrespells, hspot⟩ := hname
      by_cases hold : t.lexeme = r.old
      · rcases hrespells with rfl | rfl
        · rw [hspot.lexeme]
          exact .runtimeError hplace hspot
        · have hnew : t'.lexeme = r.new := by
            rw [hspot.lexeme, Respelling.lexeme_token, hold, Respelling.name_old]
          rw [hold, hnew]
          exact .undefined hplace hspot.line hold hnew
      · rw [Respelling.Respells, Respelling.token_of_ne hold, or_self] at hrespells
        obtain rfl := hrespells
        rw [hspot.lexeme]
        exact .runtimeError hplace hspot

/-- A respelled program prints the same and comes to the same end. -/
theorem perform?_respelled (hrespelled : Stmt.RespelledAll r ss ss')
    (havoids : Stmt.AvoidsAll r.new ss)
    (hspelled : Stmt.AlikeAll Token.SameSpot (fun _ _ => True) ss' ss'')
    (hdistances : (findingsOf (Stmt.numberAll (start reading).next ss'').1).distances =
      (findingsOf (Stmt.numberAll (start reading).next ss).1).distances) (fuel : Nat) :
    Option.Rel (fun p q => q.1.output = p.1.output ∧
        r.SameOutcome ss ss'' p.1.outcome q.1.outcome)
      ((start reading).perform? fuel ss) ((start reading).perform? fuel ss'') ∧
      (start reading).printout fuel ss'' = (start reading).printout fuel ss := by
  have hplaces := (hrespelled.alike.flip.common hspelled).mono (fun _ _ _ => trivial)
    fun _ _ _ => trivial
  refine ⟨?_, printout_of_statements hdistances
    (statements_respelling hrespelled havoids hspelled hplaces reading) fuel⟩
  -- One run is followed with every `R` that holds at all places: so an error is at one place.
  have hends (R : Token → Token → Prop) (hR : Stmt.AlikeAll R (fun _ _ => True) ss ss'') :
      Option.Rel (fun p q => q.1.output = p.1.output ∧
          (respelling r R ((start reading).loaded ss).distances).Ends p.1.outcome q.1.outcome)
        ((start reading).perform? fuel ss) ((start reading).perform? fuel ss'') :=
    perform?_of_statements hdistances
      (statements_respelling hrespelled havoids hspelled hR reading) fuel
  generalize (start reading).perform? fuel ss = reply at hends ⊢
  generalize (start reading).perform? fuel ss'' = reply' at hends ⊢
  cases hends _ hplaces with
  | none => exact .none
  | some hanswer =>
    have houtcomes (R : Token → Token → Prop) (hR : Stmt.AlikeAll R (fun _ _ => True) ss ss'') :=
      (Option.rel_some_some.mp (hends R hR)).2
    exact .some ⟨hanswer.1, sameOutcome_of_ends hplaces houtcomes⟩

end Running

/-- Let the variables of a block or a function get a new name that is an identifier and occurs
    nowhere in an accepted source. Then the program so respelled has sources, and whatever source it
    has is accepted, has the same distances, and runs with the same output to the same outcome. A
    run that is cut off has printed the same as well. -/
theorem run?_respelled (haccepted : (Analysis.ofSource 0 source).faults = [])
    (hnew : ∀ t ∈ (Tokens.ofString source).tokens, t.lexeme ≠ r.new)
    (hrespelled : Stmt.RespelledAll r (statementsOf source) ss) :
    (∃ source', Spells source' ss) ∧ ∀ source', Spells source' ss →
      (Analysis.ofSource 0 source').faults = [] ∧
      (Analysis.ofSource 0 source').findings.distances =
        (Analysis.ofSource 0 source).findings.distances ∧
      ∀ (fuel : Nat) (reading : Nat → Float), Option.Rel (fun p q => q.1.output = p.1.output ∧
          r.SameOutcome (statementsOf source) (statementsOf source') p.1.outcome q.1.outcome)
        ((start reading).run? fuel source) ((start reading).run? fuel source') ∧
        (start reading).printout fuel (statementsOf source') =
          (start reading).printout fuel (statementsOf source) := by
  refine ⟨exists_spells haccepted hrespelled.alike, fun source' hspells => ?_⟩
  obtain ⟨hlexical, hgrammatical, hspelled⟩ := hspells
  have havoids := avoidsAll_statementsOf haccepted hnew
  have hfound := findingsOf_respelled (hrespelled.number 0).1 (havoids.number 0)
  have hfaults : (Analysis.ofSource 0 source').faults = [] := by
    have hscoping := (faults_ofSource_eq_nil_iff.mp haccepted).2.2
    rw [hfound.errors_eq_nil_iff, errors_eq_nil_iff_of_alike hspelled
      (fun _ _ h => h.toSameText) 0 0] at hscoping
    exact faults_ofSource_eq_nil_iff.mpr ⟨hlexical, hgrammatical, hscoping⟩
  have hdistances := (distances_of_alike hspelled (fun _ _ h => h.toSameText) 0).trans
    hfound.distances_eq
  refine ⟨hfaults, hdistances, fun fuel reading => ?_⟩
  rw [run?_eq_perform? (s := start reading) haccepted,
    run?_eq_perform? (s := start reading) hfaults]
  exact perform?_respelled hrespelled havoids hspelled hdistances fuel

/-- In the block of this source `x` is assigned to before it is defined. The `x` of the function is
    another variable. -/
def unready : String :=
  "\x7b fun f(x) \x7b return x; \x7d print f(nil); var x = x = f; \x7d"

/-- The same source with another name for the variable of the block. -/
def unreadyRespelled : String :=
  "\x7b fun f(x) \x7b return x; \x7d print f(nil); var y = y = f; \x7d"

def xToY : Respelling :=
  ⟨"x", "y", by decide, by decide⟩

/-- The program of both sources, where the variable of the block has this name. -/
def unreadyProgram (name : String) : List (Stmt Unit) :=
  [.block
    [.function ⟨.identifier, "f", 1, 6⟩ [⟨.identifier, "x", 1, 8⟩]
      [.return ⟨.keyword .return, "return", 1, 13⟩ (some (.var () ⟨.identifier, "x", 1, 20⟩))],
    .print (.call (.var () ⟨.identifier, "f", 1, 31⟩) ⟨.punct .rightParen, ")", 1, 36⟩
      [.literal .nil]),
    .var ⟨.identifier, name, 1, 43⟩ (some (.assign () ⟨.identifier, name, 1, 47⟩
      (.var () ⟨.identifier, "f", 1, 51⟩)))]]

theorem statementsOf_unready : statementsOf unready = unreadyProgram "x" := by
  cbv

theorem statementsOf_unreadyRespelled : statementsOf unreadyRespelled = unreadyProgram "y" := by
  cbv

/-- In the block, the variable may be named otherwise. -/
theorem respelledAll_unready :
    Stmt.RespelledAll xToY (statementsOf unready) (unreadyProgram "y") := by
  rw [statementsOf_unready]
  refine .first (.block ?_)
  simp [Stmt.declaresFunction, xToY]

/-- The second source spells the respelled program. -/
theorem spells_unreadyRespelled : Spells unreadyRespelled (unreadyProgram "y") where
  lexical := by decide +kernel
  grammatical := by decide +kernel
  alike := by
    rw [statementsOf_unreadyRespelled]
    exact Stmt.alikeAll_self (fun _ => ⟨⟨rfl, rfl⟩, rfl⟩) _ fun _ _ => trivial

/-- The token at byte 47 of the one source is opposite the token at byte 47 of the other. -/
theorem opposite_unready {t t' : Token}
    (h : Opposite (statementsOf unready) (statementsOf unreadyRespelled) t t')
    (hoffset : t.offset = 47) : t'.lexeme = "y" := by
  refine h (fun t t' => t.offset = 47 → t'.lexeme = "y") ?_ hoffset
  rw [statementsOf_unready, statementsOf_unreadyRespelled]
  refine .cons (.block (.cons ?_ (.cons ?_ (.cons ?_ .nil)))) .nil
  · exact .function (by simp) (.cons (by simp) .nil)
      (.cons (.returned (by simp) (.var trivial (by simp))) .nil)
  · exact .print (.call (.var trivial (by simp)) (by simp) (.cons .literal .nil))
  · exact .initialized (by simp) (.assign trivial (by simp) (.var trivial (by simp)))

/-- A variable that is read outside its block fails in both sources, each time under its own
    name. -/
theorem run?_respelled_unready :
    Stmt.RespelledAll xToY (statementsOf unready) (unreadyProgram "y") ∧
      Spells unreadyRespelled (unreadyProgram "y") ∧
      ∃ t s, (start fun _ => 0).run? 9 unreadyRespelled =
        some (⟨.runtimeError ⟨t, .undefined "y"⟩, "nil\n"⟩, s) := by
  refine ⟨respelledAll_unready, spells_unreadyRespelled, ?_⟩
  obtain ⟨-, hrespelled⟩ := run?_respelled (by decide +kernel) (by decide +kernel)
    respelledAll_unready
  obtain ⟨-, -, hrun⟩ := hrespelled _ spells_unreadyRespelled
  obtain ⟨hrun, -⟩ := hrun 9 fun _ => 0
  have hanswer : ((start fun _ => 0).run? 9 unready).map Prod.fst =
      some ⟨.runtimeError ⟨⟨.identifier, "x", 1, 47⟩, .undefined "x"⟩, "nil\n"⟩ := by
    cbv
  obtain ⟨⟨answer, s⟩, hunready, rfl⟩ := Option.map_eq_some_iff.mp hanswer
  rw [hunready] at hrun
  cases hreply : (start fun _ => 0).run? 9 unreadyRespelled with
  | none =>
    rw [hreply] at hrun
    cases hrun
  | some reply =>
    rw [hreply] at hrun
    obtain ⟨houtput, hsame⟩ := Option.rel_some_some.mp hrun
    obtain ⟨⟨outcome, output⟩, s'⟩ := reply
    obtain rfl := houtput
    cases hsame with
    | runtimeError hplace hspot =>
      have hlexeme := opposite_unready hplace rfl
      rw [hspot.lexeme] at hlexeme
      exact absurd hlexeme (by decide)
    | undefined => exact ⟨_, _, rfl⟩

end Session

end Lox

import Mathlib
import Lox.Proofs.Grammar.Relocation
import Lox.Proofs.Session.Sequence
import Lox.Proofs.Token.LineBreak

/-!
Sources that are run one by one, and the same sources joined at line breaks and run at once. The
joined source is read into the programs of its parts one behind the other, but for the places of
their tokens, and programs run alike wherever their tokens stand.
-/

namespace Lox.Session

/-- The answers to sources that are run one by one, up to the first that does not end well. -/
def answers? (fuel : Nat) (s : Session) : List String → Option (List Answer)
  | [] => some []
  | source :: rest =>
    match s.run? fuel source with
    | none => none
    | some (⟨.success, output⟩, s') => (s'.answers? fuel rest).map (⟨.success, output⟩ :: ·)
    | some (answer, _) => some [answer]

/-- What stands in front of the next source where these are joined before it. -/
def lead (sources : List String) : List Char :=
  sources.flatMap fun source => source.toList ++ ['\n']

/-- The program of a source whose tokens are marked, that is, given other places. -/
def markedStatements (mark : Token → Token) (source : String) : List (Stmt Unit) :=
  (Grammar.program ((Tokens.ofString source).tokens.map mark)).statements

/-- The programs of sources that have the numbers from `i` on, each with its own marks. -/
def markedPrograms (mark : Nat → Token → Token) (i : Nat) : List String → List (List (Stmt Unit))
  | [] => []
  | source :: rest => markedStatements (mark i) source :: markedPrograms mark (i + 1) rest

/-- Run one by one, the sources come to an error at this token of the `i`-th. Equal tokens of
    different sources are told apart by marks: whatever the marks are, the error is at the token
    with the mark of the `i`-th source. -/
def Reports (fuel : Nat) (s : Session) (sources : List String) (i : Nat) (t : Token)
    (problem : RuntimeProblem) : Prop :=
  (∃ source, sources[i]? = some source ∧ t ∈ (Tokens.ofString source).tokens) ∧
    ∀ mark : Nat → Token → Token, (∀ j (u : Token), u.SameText (mark j u)) →
      ∃ answers, s.performAll? fuel (markedPrograms mark 0 sources) = some answers ∧
        lastOutcome answers = .runtimeError ⟨mark i t, problem⟩

/-- The same outcome of some of the sources, run one by one, and of all of them, joined: an error is
    at the same token, behind the sources before its own. -/
inductive SameOutcome (fuel : Nat) (s : Session) (sources : List String) (runs : Nat) :
    Outcome → Outcome → Prop
  | success : SameOutcome fuel s sources runs .success .success
  | runtimeError {i : Nat} {t : Token} {problem : RuntimeProblem} (hi : i < runs)
      (hreports : s.Reports fuel sources i t problem) :
      SameOutcome fuel s sources runs (.runtimeError ⟨t, problem⟩)
        (.runtimeError ⟨t.behind (lead (sources.take i)), problem⟩)

/-- A token of the `i`-th source with one mark, and with another. -/
def Marked (sources : List String) (mark mark' : Nat → Token → Token) (i : Nat) (t t' : Token) :
    Prop :=
  ∃ source u, sources[i]? = some source ∧ u ∈ (Tokens.ofString source).tokens ∧ t = mark i u ∧
    t' = mark' i u

variable {sources rest : List String} {source : String} {i k : Nat} {t t' : Token}
  {mark mark' : Nat → Token → Token}

/-- The text in front of a source ends with the source before it and a line break. -/
theorem lead_append (sources : List String) (source : String) :
    lead (sources ++ [source]) = lead sources ++ (source.toList ++ ['\n']) := by
  simp [lead]

/-- Tokens that are marked have the same text. -/
theorem Marked.sameText (hmark : ∀ i (t : Token), t.SameText (mark i t))
    (hmark' : ∀ i (t : Token), t.SameText (mark' i t)) (h : Marked sources mark mark' i t t') :
    t.SameText t' := by
  obtain ⟨_, u, -, -, rfl, rfl⟩ := h
  exact ⟨(hmark' i u).kind.trans (hmark i u).kind.symm,
    (hmark' i u).lexeme.trans (hmark i u).lexeme.symm⟩

section Reading

/-! How marked sources are read, and joined ones. -/

/-- A source has no faults where its text, its grammar and its scopes have no errors. -/
theorem faults_ofSource_eq_nil_iff {next : RefId} :
    (Analysis.ofSource next source).faults = [] ↔ (Tokens.ofString source).errors = [] ∧
      (Grammar.program (Tokens.ofString source).tokens).errors = [] ∧
      (findingsOf (Stmt.numberAll next (statementsOf source)).1).errors = [] := by
  simp only [Analysis.faults, Analysis.ofSource, List.append_eq_nil_iff, List.map_eq_nil_iff,
    and_assoc]
  rfl

theorem markedStatements_id (source : String) :
    markedStatements (fun t => t) source = statementsOf source := by
  rw [markedStatements, List.map_id', statementsOf]

/-- An accepted source is a program of the grammar, with any marks, and reading can go on behind
    it. -/
theorem exists_reading (h : (Analysis.ofSource 0 source).faults = []) :
    ∃ ts, ts ⊆ (Tokens.ofString source).tokens ∧ Reader.Accepts ⟨1, 0⟩ source.toList ts ∧
      ∀ mark : Token → Token, (∀ t : Token, t.SameText (mark t)) →
        Grammar.DerivesProgram true (ts.map mark) (markedStatements mark source) ∧
        Stmt.AlikeAll (fun u t => u ∈ ts ∧ t = mark u) (fun _ _ => True) (statementsOf source)
          (markedStatements mark source) := by
  obtain ⟨hlexical, hgrammatical, -⟩ := faults_ofSource_eq_nil_iff.mp h
  obtain ⟨ts, last, htokens, hfree, hlast, haccepts⟩ := Tokens.exists_accepts hlexical
  rw [htokens] at hgrammatical
  refine ⟨ts, htokens ▸ List.subset_append_left ts [last], haccepts, fun mark hmark => ?_⟩
  obtain ⟨ss, hderives, halike⟩ :=
    (Grammar.program_sound hfree hlast hgrammatical).relocate (R := fun u t => u ∈ ts ∧ t = mark u)
      hmark fun t ht => ⟨ht, rfl⟩
  have hend : (mark last).isEnd := by rwa [Token.isEnd, (hmark last).kind]
  have hmarked : markedStatements mark source = ss := by
    rw [markedStatements, htokens, List.map_append, List.map_singleton,
      Grammar.program_complete hderives hend]
  rw [hmarked, statementsOf, htokens]
  exact ⟨hderives, halike⟩

/-- The place of a token of the `i`-th source where the sources are joined. -/
def place (sources : List String) (i : Nat) : Token → Token :=
  Token.behind (lead (sources.take i))

/-- A token is placed behind other text with its own text. -/
theorem place_sameText (sources : List String) (i : Nat) (t : Token) :
    t.SameText (place sources i t) :=
  ⟨rfl, rfl⟩

/-- Accepted sources that are joined behind others are read one behind the other. -/
theorem exists_joined (before : List String)
    (h : ∀ source ∈ rest, (Analysis.ofSource 0 source).faults = [])
    (hsources : sources = before ++ rest) :
    ∃ ts, Reader.Accepts (Position.past ⟨1, 0⟩ (lead before)) ("\n".intercalate rest).toList ts ∧
      Grammar.DerivesProgram true ts
        (markedPrograms (place sources) before.length rest).flatten := by
  induction rest generalizing before with
  | nil => exact ⟨[], .nil rfl, [], rfl, rfl, by simp⟩
  | cons source rest ih =>
    rw [List.forall_mem_cons] at h
    obtain ⟨ts, -, haccepts, hmarked⟩ := exists_reading h.1
    have hplace : place sources before.length = Token.behind (lead before) := by
      rw [place, hsources, List.take_left]
    obtain ⟨hderives, -⟩ := hmarked (place sources before.length) fun _ => ⟨rfl, rfl⟩
    have hmoved := haccepts.behind (lead before)
    rw [← hplace] at hmoved
    cases rest with
    | nil =>
      rw [String.intercalate_singleton]
      refine ⟨_, hmoved, ?_⟩
      rwa [markedPrograms, markedPrograms, List.flatten_cons, List.flatten_nil, List.append_nil]
    | cons source' rest =>
      have hsources' : sources = (before ++ [source]) ++ source' :: rest := by simp [hsources]
      obtain ⟨us, haccepts', hderives'⟩ := ih _ h.2 hsources'
      rw [lead_append, Position.past_append] at haccepts'
      rw [List.length_append, List.length_singleton] at hderives'
      refine ⟨_, ?_, hderives.append hderives'⟩
      rw [String.intercalate_cons_cons]
      simpa using hmoved.append_newline haccepts'

end Reading

section Acceptance

/-! Whether there are scoping errors depends on the shape of a program alone. -/

/-- Programs that differ in the places of their tokens have errors of scope both or neither. -/
theorem errors_eq_nil_iff_of_alike {R : Token → Token → Prop} {ss ss' : List (Stmt Unit)}
    (h : Stmt.AlikeAll R (fun _ _ => True) ss ss') (hR : ∀ t t', R t t' → t.SameText t')
    (n n' : RefId) :
    (findingsOf (Stmt.numberAll n ss).1).errors = [] ↔
      (findingsOf (Stmt.numberAll n' ss').1).errors = [] := by
  have hpaired : Paired (fun _ _ => True) (Stmt.numberAll n ss).2 n n' := fun _ _ => trivial
  exact (findingsOf_alike (h.number hpaired (Nat.le_refl _)).1 hR).errors_eq_nil_iff

/-- Marked tokens have no bearing on errors of scope. -/
theorem errors_marked_eq_nil_iff {mark : Token → Token}
    (h : (Analysis.ofSource 0 source).faults = []) (hmark : ∀ t : Token, t.SameText (mark t))
    (n n' : RefId) :
    (findingsOf (Stmt.numberAll n (statementsOf source)).1).errors = [] ↔
      (findingsOf (Stmt.numberAll n' (markedStatements mark source)).1).errors = [] := by
  obtain ⟨_, -, -, hmarked⟩ := exists_reading h
  refine errors_eq_nil_iff_of_alike (hmarked mark hmark).2 ?_ n n'
  rintro t _ ⟨-, rfl⟩
  exact hmark t

/-- A source that is accepted on its own is accepted at every point of a session. -/
theorem accepted_of_accepted (h : (Analysis.ofSource 0 source).faults = []) (s : Session) :
    (s.analysis source).faults = [] := by
  obtain ⟨hlexical, hgrammatical, hscoping⟩ := faults_ofSource_eq_nil_iff.mp h
  refine faults_ofSource_eq_nil_iff.mpr ⟨hlexical, hgrammatical, ?_⟩
  have hid : ∀ t : Token, t.SameText (id t) := fun _ => ⟨rfl, rfl⟩
  rw [errors_marked_eq_nil_iff h hid 0 0] at hscoping
  rwa [errors_marked_eq_nil_iff h hid s.next 0]

/-- Programs without errors of scope have none when they stand one behind the other. -/
theorem errors_markedPrograms (h : ∀ source ∈ rest, (Analysis.ofSource 0 source).faults = [])
    (hmark : ∀ i (t : Token), t.SameText (mark i t)) (i : Nat) (next : RefId) :
    (findingsOf (Stmt.numberAll next (markedPrograms mark i rest).flatten).1).errors = [] := by
  induction rest generalizing i next with
  | nil => rfl
  | cons source rest ih =>
    rw [List.forall_mem_cons] at h
    have hscoping := (faults_ofSource_eq_nil_iff.mp h.1).2.2
    rw [errors_marked_eq_nil_iff h.1 (hmark i) 0 next] at hscoping
    rw [markedPrograms, List.flatten_cons, Stmt.numberAll_append, findingsOf_append,
      Findings.errors_append, hscoping, ih h.2]
    rfl

/-- The joined source is accepted, and its program is that of its parts. -/
theorem accepted_intercalate (h : ∀ source ∈ sources, (Analysis.ofSource 0 source).faults = []) :
    (Analysis.ofSource 0 ("\n".intercalate sources)).faults = [] ∧
      statementsOf ("\n".intercalate sources) =
        (markedPrograms (place sources) 0 sources).flatten := by
  obtain ⟨ts, haccepts, hderives⟩ := exists_joined [] h rfl
  obtain ⟨last, hlast, htokens⟩ := haccepts.ofItems (Nat.lt_succ_self _)
  have hread : Tokens.ofString ("\n".intercalate sources) = ⟨ts ++ [last], []⟩ := htokens
  have hprogram := Grammar.program_complete hderives hlast
  have hstatements : statementsOf ("\n".intercalate sources) =
      (markedPrograms (place sources) 0 sources).flatten := by
    rw [statementsOf, hread, hprogram]
    rfl
  rw [faults_ofSource_eq_nil_iff, hstatements, hread, hprogram]
  exact ⟨⟨rfl, rfl, errors_markedPrograms h (place_sameText sources) 0 0⟩, rfl⟩

end Acceptance

section Running

/-- Without marks the programs are the sources. -/
theorem answers?_eq_performAll? (h : ∀ source ∈ rest, (Analysis.ofSource 0 source).faults = [])
    (fuel i : Nat) (s : Session) :
    s.answers? fuel rest = s.performAll? fuel (markedPrograms (fun _ t => t) i rest) := by
  induction rest generalizing i s with
  | nil => rfl
  | cons source rest ih =>
    rw [List.forall_mem_cons] at h
    rw [answers?, markedPrograms, performAll?, markedStatements_id,
      run?_eq_perform? (accepted_of_accepted h.1 s)]
    rcases s.perform? fuel (statementsOf source) with _ | ⟨⟨outcome, output⟩, s'⟩
    · rfl
    · cases outcome with
      | success => exact congrArg (Option.map (⟨.success, output⟩ :: ·)) (ih h.2 (i + 1) s')
      | _ => rfl

/-- The programs of all parts join, each token beside its marked one. -/
theorem joined_markedPrograms (before : List String)
    (h : ∀ source ∈ rest, (Analysis.ofSource 0 source).faults = [])
    (hmark : ∀ i (t : Token), t.SameText (mark i t))
    (hmark' : ∀ i (t : Token), t.SameText (mark' i t)) (hsources : sources = before ++ rest) :
    Joined (Marked sources mark mark') before.length (markedPrograms mark before.length rest)
      (markedPrograms mark' before.length rest).flatten := by
  induction rest generalizing before with
  | nil => exact .nil
  | cons source rest ih =>
    rw [List.forall_mem_cons] at h
    obtain ⟨_, hts, -, hmarked⟩ := exists_reading h.1
    have halike := (hmarked _ (hmark before.length)).2.common (hmarked _ (hmark' before.length)).2
    have hsources' : sources = (before ++ [source]) ++ rest := by simp [hsources]
    have hrest := ih _ h.2 hsources'
    rw [List.length_append, List.length_singleton] at hrest
    refine .cons (halike.mono ?_ fun _ _ _ => trivial) hrest
    rintro t t' ⟨u, ⟨hu, rfl⟩, -, rfl⟩
    exact ⟨before.length, Nat.lt_succ_self _, source, u, by simp [hsources], hts hu, rfl, rfl⟩

/-- Whatever the marks are, the run of the whole goes through the runs of its parts. -/
theorem concludes_marked (h : ∀ source ∈ sources, (Analysis.ofSource 0 source).faults = [])
    (hmark : ∀ i (t : Token), t.SameText (mark i t))
    (hmark' : ∀ i (t : Token), t.SameText (mark' i t)) (fuel : Nat) (reading : Nat → Float) :
    Concludes (Marked sources mark mark') 0 ""
      ((start reading).performAll? fuel (markedPrograms mark 0 sources))
      (runProgram fuel (Stmt.numberAll (start reading).next
          (markedPrograms mark' 0 sources).flatten).1
        ((start reading).loaded (markedPrograms mark' 0 sources).flatten)) :=
  (joined_markedPrograms [] h hmark hmark' rfl).concludes
    (abreast_start (fun _ _ _ => Marked.sameText hmark hmark') reading _) fuel

end Running

section Tags

/-! Marks that tell all tokens apart, of whatever source they are. -/

def tag (i : Nat) (t : Token) : Token :=
  { t with offset := Nat.pair i t.offset }

theorem tag_sameText (i : Nat) (t : Token) : t.SameText (tag i t) :=
  ⟨rfl, rfl⟩

/-- A tagged token tells its tag and itself. -/
theorem tag_injective {i j : Nat} {t u : Token} (h : tag i t = tag j u) : i = j ∧ t = u := by
  obtain ⟨hkind, hlexeme, hline, hoffset⟩ := Token.mk.inj h
  obtain ⟨rfl, hoffset⟩ := Nat.pair_eq_pair.mp hoffset
  refine ⟨rfl, ?_⟩
  cases t
  cases u
  simp_all

/-- A token that faces a tagged one belongs to the part of the tag. -/
theorem Upto.of_tag {u : Token} (h : Upto (Marked sources mark tag) k t (tag i u)) :
    i < k ∧ t = mark i u := by
  obtain ⟨j, hj, source, v, -, -, rfl, htag⟩ := h
  obtain ⟨rfl, rfl⟩ := tag_injective htag
  exact ⟨hj, rfl⟩

theorem Upto.of_tag_left {u : Token} (h : Upto (Marked sources tag mark) k (tag i u) t') :
    t' = mark i u := by
  obtain ⟨j, -, source, v, -, -, htag, rfl⟩ := h
  obtain ⟨rfl, rfl⟩ := tag_injective htag
  rfl

end Tags

/-- An error of the joined run is one that the runs one by one report. -/
theorem exists_reports (h : ∀ source ∈ sources, (Analysis.ofSource 0 source).faults = [])
    {fuel : Nat} {reading : Nat → Float} {problem : RuntimeProblem} {m : Machine}
    {answers : List Answer}
    (hanswers : (start reading).performAll? fuel (markedPrograms (fun _ t => t) 0 sources) =
      some answers)
    (hjoined : runProgram fuel (Stmt.numberAll (start reading).next
        (markedPrograms (place sources) 0 sources).flatten).1
      ((start reading).loaded (markedPrograms (place sources) 0 sources).flatten) =
        .error (.error ⟨t', problem⟩) m) :
    ∃ i t, i < answers.length ∧ (start reading).Reports fuel sources i t problem ∧
      lastOutcome answers = .runtimeError ⟨t, problem⟩ ∧ t' = place sources i t := by
  -- The tagged sources say which token it is, and every other run agrees with one of theirs.
  have hplaced := concludes_marked h tag_sameText (place_sameText sources) fuel reading
  rw [hjoined] at hplaced
  obtain ⟨tagged, u, htagged, hlast, hu⟩ := hplaced.of_error
  obtain ⟨i, -, source, t, hsource, ht, rfl, rfl⟩ := hu
  have hwhole := concludes_marked h tag_sameText tag_sameText fuel reading
  rw [htagged] at hwhole
  obtain ⟨u, m', hresult, hu⟩ := hwhole.exists_error hlast
  obtain rfl := hu.of_tag_left
  have hreported (mark : Nat → Token → Token) (hmark : ∀ i (t : Token), t.SameText (mark i t)) :
      ∃ answers, (start reading).performAll? fuel (markedPrograms mark 0 sources) = some answers ∧
        lastOutcome answers = .runtimeError ⟨mark i t, problem⟩ ∧ i < answers.length := by
    have hmarked := concludes_marked h hmark tag_sameText fuel reading
    rw [hresult] at hmarked
    obtain ⟨answers, v, hanswers, hlast, hv⟩ := hmarked.of_error
    obtain ⟨hi, rfl⟩ := hv.of_tag
    exact ⟨answers, hanswers, hlast, by simpa using hi⟩
  obtain ⟨answers', hanswers', hlast', hi⟩ := hreported (fun _ t => t) fun _ _ => ⟨rfl, rfl⟩
  obtain rfl := Option.some.inj (hanswers.symm.trans hanswers')
  refine ⟨i, t, hi, ⟨⟨source, hsource, ht⟩, fun mark hmark => ?_⟩, hlast', rfl⟩
  obtain ⟨answers', hanswers', hlast', -⟩ := hreported mark hmark
  exact ⟨answers', hanswers', hlast'⟩

/-- Sources that are accepted one by one are accepted when they are joined at line breaks. The run
    of the joined source prints what the runs one by one print, up to the first run-time error, and
    ends as the last of them: with the same problem if there is an error, at the same token. -/
theorem run?_intercalate (fuel : Nat) (reading : Nat → Float)
    (h : ∀ source ∈ sources, (Analysis.ofSource 0 source).faults = []) :
    (Analysis.ofSource 0 ("\n".intercalate sources)).faults = [] ∧
      match (start reading).answers? fuel sources with
      | none => (start reading).run? fuel ("\n".intercalate sources) = none
      | some answers => ∃ outcome s, (start reading).run? fuel ("\n".intercalate sources) =
            some (⟨outcome, String.join (answers.map (·.output))⟩, s) ∧
          SameOutcome fuel (start reading) sources answers.length (lastOutcome answers)
            outcome := by
  obtain ⟨hfaults, hstatements⟩ := accepted_intercalate h
  refine ⟨hfaults, ?_⟩
  have hid : ∀ (i : Nat) (t : Token), t.SameText ((fun _ t => t) i t) := fun _ _ => ⟨rfl, rfl⟩
  have hconcludes := concludes_marked h hid (place_sameText sources) fuel reading
  have hperform := run?_eq_perform? (s := start reading) hfaults fuel
  rw [hperform, hstatements, answers?_eq_performAll? h fuel 0, perform?]
  generalize hanswers : (start reading).performAll? fuel _ = answers at hconcludes ⊢
  generalize hjoined : runProgram fuel _ _ = result at hconcludes ⊢
  cases hconcludes with
  | success hlast houtput =>
    rw [String.empty_append] at houtput
    dsimp only
    rw [← houtput, hlast]
    exact ⟨_, _, rfl, .success⟩
  | error hlast htoken houtput =>
    obtain ⟨i, t, hi, hreports, hlast', rfl⟩ := exists_reports h hanswers hjoined
    rw [String.empty_append] at houtput
    dsimp only
    rw [← houtput, hlast']
    exact ⟨_, _, rfl, .runtimeError hi hreports⟩
  | outOfFuel => rfl

/-- Three sources, of which the second comes to an error inside a function of the first. -/
def failingSources : List String :=
  ["fun f() \x7b return a; \x7d", "print nil; f();", "print true;"]

/-- Three sources of which the second fails at run time, run one by one and joined. -/
theorem run?_intercalate_failingSources :
    (∀ source ∈ failingSources, (Analysis.ofSource 0 source).faults = []) ∧
      ∃ i t s, i < 2 ∧ (start fun _ => 0).Reports 9 failingSources i t (.undefined "a") ∧
        (start fun _ => 0).run? 9 ("\n".intercalate failingSources) =
          some (⟨.runtimeError ⟨t.behind (lead (failingSources.take i)), .undefined "a"⟩,
            "nil\n"⟩, s) := by
  have haccepted : ∀ source ∈ failingSources, (Analysis.ofSource 0 source).faults = [] := by
    decide +kernel
  have hanswers : (start fun _ => 0).answers? 9 failingSources = some [⟨.success, ""⟩,
      ⟨.runtimeError ⟨⟨.identifier, "a", 1, 17⟩, .undefined "a"⟩, "nil\n"⟩] := by
    cbv
  -- From here on the sources are only a name: nothing must run them again.
  generalize failingSources = sources at haccepted hanswers ⊢
  have hrun := (run?_intercalate 9 (fun _ => 0) haccepted).2
  rw [hanswers] at hrun
  obtain ⟨outcome, s, hrun, hsame⟩ := hrun
  generalize houtcome : lastOutcome _ = last at hsame
  cases hsame with
  | success => cases houtcome
  | runtimeError hi hreports =>
    cases houtcome
    exact ⟨haccepted, _, _, s, hi, hreports, hrun⟩

end Lox.Session

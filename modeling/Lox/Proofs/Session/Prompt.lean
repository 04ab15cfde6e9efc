import Lox.Command
import Lox.Proofs.Session.Gate
import Lox.Proofs.Text.Utf8
import Lox.Proofs.Token.Line

namespace Lox

/-- The lines of a text. Each ends behind its newline, only the last one may do without. -/
def linesOf (text : String) : List String :=
  (text.toList.splitBy fun c _ => c != '\n').map String.ofList

def Outcome.isRuntimeError : Outcome → Bool
  | runtimeError _ => true
  | success | staticFaults _ => false

/-- Runs texts one after the other in the same session. -/
def Session.runEach? (fuel : Nat) : Session → List String → Option (List Answer × Session)
  | s, [] => some ([], s)
  | s, text :: texts => do
    let (answer, s) ← s.run? fuel text
    let (answers, s) ← s.runEach? fuel texts
    return (answer :: answers, s)

namespace Prompt

open Text (utf8)

variable {front bytes : List UInt8} {cs : List Char} {fuel : Nat} {s s' : Session}
  {answer : Answer} {answers : List Answer}

/-! ### Lines -/

/-- A newline ends a line, and belongs to it. -/
theorem splitLines_append_newline (h : 10 ∉ front) :
    splitLines (front ++ 10 :: bytes) = (front ++ [10]) :: splitLines bytes := by
  induction front with
  | nil => exact if_pos rfl
  | cons b front ih =>
    rw [List.mem_cons, not_or] at h
    rw [List.cons_append, splitLines, if_neg (Ne.symm h.1), ih h.2]
    rfl

/-- The last line may lack its newline. There is no line if nothing is left. -/
theorem splitLines_of_not_mem (hne : front ≠ []) (h : 10 ∉ front) :
    splitLines front = [front] := by
  induction front with
  | nil => exact absurd rfl hne
  | cons b front ih =>
    rw [List.mem_cons, not_or] at h
    rw [splitLines, if_neg (Ne.symm h.1)]
    cases front with
    | nil => rfl
    | cons c front => rw [ih (List.cons_ne_nil _ _) h.2]

/-- In the bytes of a text a newline stands just where one of its characters is a newline: every
    other character has bytes of its own. -/
theorem newline_mem_utf8_iff : 10 ∈ utf8 cs ↔ '\n' ∈ cs := by
  have hcount := @Text.countP_utf8 (· == '\n')
    (fun d hd => beq_false_of_ne (Text.wide_ne hd (by decide))) cs
  simp only [ofUInt8_beq_newline] at hcount
  rw [← List.count_pos_iff, ← List.count_pos_iff, List.count, List.count]
  exact iff_of_eq (congrArg (0 < ·) hcount)

/-- A line has a newline at its end only. -/
theorem newline_not_mem_of_isChain {c : Char} (h : (cs ++ [c]).IsChain fun d _ => d != '\n') :
    '\n' ∉ cs := by
  induction cs with
  | nil => exact List.not_mem_nil
  | cons d cs ih =>
    obtain ⟨e, rest, hrest⟩ : ∃ e rest, cs ++ [c] = e :: rest :=
      List.exists_cons_of_ne_nil (by simp)
    rw [List.cons_append, hrest, List.isChain_cons_cons, ← hrest] at h
    rw [List.mem_cons, not_or]
    exact ⟨Ne.symm (bne_iff_ne.mp h.1), ih h.2⟩

/-- Only the last line does without a newline at its end. -/
theorem eq_nil_of_isChain {c : Char} {texts : List (List Char)} (hc : c ≠ '\n')
    (hends : ((cs ++ [c]) :: texts).IsChain fun text next =>
      ∃ h : text ≠ [], ∃ _ : next ≠ [], (text.getLast h != '\n') = false) :
    texts = [] := by
  cases texts with
  | nil => rfl
  | cons next texts =>
    rw [List.isChain_cons_cons] at hends
    obtain ⟨⟨_, _, hlast⟩, -⟩ := hends
    rw [List.getLast_append_singleton, bne_eq_false_iff_eq] at hlast
    exact absurd hlast hc

/-- Texts that each end in a newline, but for the last, and have no other newlines are the lines of
    what they make up together. -/
theorem splitLines_utf8_flatten {texts : List (List Char)} (hne : [] ∉ texts)
    (hchain : ∀ text ∈ texts, text.IsChain fun c _ => c != '\n')
    (hends : texts.IsChain fun text next =>
      ∃ h : text ≠ [], ∃ _ : next ≠ [], (text.getLast h != '\n') = false) :
    splitLines (utf8 texts.flatten) = texts.map utf8 := by
  induction texts with
  | nil => rfl
  | cons text texts ih =>
    rw [List.mem_cons, not_or] at hne
    obtain rfl | ⟨front, c, rfl⟩ := text.eq_nil_or_concat
    · exact absurd rfl hne.1
    simp only [List.concat_eq_append] at *
    have hfront : '\n' ∉ front := newline_not_mem_of_isChain (hchain _ List.mem_cons_self)
    have hrest := ih hne.2 (fun text htext => hchain text (List.mem_cons_of_mem _ htext)) hends.tail
    rw [List.flatten_cons, List.map_cons, Text.utf8_append]
    by_cases hc : c = '\n'
    · have hnewline : utf8 [c] = [10] := by
        rw [hc]
        rfl
      rw [Text.utf8_append, hnewline, List.append_assoc, List.singleton_append,
        splitLines_append_newline (mt newline_mem_utf8_iff.mp hfront), hrest]
    · obtain rfl := eq_nil_of_isChain hc hends
      rw [List.flatten_nil, Text.utf8_nil, List.append_nil, List.map_nil]
      refine splitLines_of_not_mem (fun hnil => ?_) (mt newline_mem_utf8_iff.mp fun hmem => ?_)
      · exact absurd (Text.utf8_inj.mp (hnil.trans Text.utf8_nil.symm)) (by simp)
      · rw [List.mem_append, List.mem_singleton] at hmem
        exact hmem.elim hfront fun h => hc h.symm

/-- The bytes are cut where the text is. -/
theorem splitLines_utf8 (text : String) :
    splitLines (utf8 text.toList) = (linesOf text).map fun line => utf8 line.toList := by
  have hlines := splitLines_utf8_flatten
    (List.nil_notMem_splitBy (fun c _ => c != '\n') text.toList)
    (fun _ => List.isChain_of_mem_splitBy)
    (List.isChain_getLast_head_splitBy (fun c _ => c != '\n') text.toList)
  rw [List.flatten_splitBy] at hlines
  rw [hlines, linesOf, List.map_map]
  refine List.map_congr_left fun cs _ => ?_
  rw [Function.comp_apply, String.toList_ofList]

/-! ### Turns -/

/-- What the prompt does with a whole line. A line without any text ends it; any other is run, and
    printed are its output and the faults it had, if any. -/
theorem turn?_utf8 (fuel : Nat) (s : Session) (line : String) :
    turn? fuel s (utf8 line.toList) =
      if isClosing line then some (⟨exitCode s, "", ""⟩, none)
      else (s.run? fuel line).map fun (answer, s) =>
        (⟨exitCode s, answer.output, faultLines answer.outcome.faults⟩, some s) := by
  rw [turn?, Text.Utf8.decode_utf8, String.ofList_toList]

/-- What the prompt shows for these answers, and leaves with as the session is in the end. -/
def transcript (answers : List Answer) (s : Session) : Transcript where
  exitCode := exitCode s
  stdout := String.join (answers.map fun answer => "> " ++ answer.output) ++ "> "
  stderr := String.join (answers.flatMap fun answer =>
    answer.outcome.faults.map fun fault => fault.message ++ "\n")

/-- The transcript grows line by line: behind a sign comes the output of the first line, and then
    all that the later ones print. -/
theorem transcript_cons (answer : Answer) (answers : List Answer) (s : Session) :
    transcript (answer :: answers) s =
      ⟨exitCode s, sign ++ answer.output ++ (transcript answers s).stdout,
        faultLines answer.outcome.faults ++ (transcript answers s).stderr⟩ := by
  have hstdout : (transcript (answer :: answers) s).stdout =
      sign ++ answer.output ++ (transcript answers s).stdout := by
    rw [transcript, List.map_cons, String.join_cons, String.append_assoc]
    rfl
  have hstderr : (transcript (answer :: answers) s).stderr =
      faultLines answer.outcome.faults ++ (transcript answers s).stderr := by
    rw [transcript, List.flatMap_cons, String.join_append, faultLines, lines, List.map_map]
    rfl
  rw [← hstdout, ← hstderr]
  rfl

/-- Lines are run up to the first that closes the prompt. -/
theorem run?_utf8 (fuel : Nat) (s : Session) (texts : List String) :
    run? fuel s (texts.map fun line => utf8 line.toList) =
      (s.runEach? fuel (texts.take (texts.findIdx isClosing))).map fun reply =>
        transcript reply.1 reply.2 := by
  induction texts generalizing s with
  | nil => rfl
  | cons text texts ih =>
    rw [List.map_cons, run?, turn?_utf8, List.findIdx_cons]
    cases hclosing : isClosing text with
    | true => rfl
    | false =>
      rw [if_neg (by decide), cond_false, List.take_succ_cons, Session.runEach?]
      cases hrun : s.run? fuel text with
      | none => rfl
      | some reply =>
        obtain ⟨answer, s₁⟩ := reply
        simp only [Option.map_some, Option.bind_eq_bind, Option.bind_some, ih]
        cases s₁.runEach? fuel (texts.take (texts.findIdx isClosing)) with
        | none => rfl
        | some rest => exact congrArg some (transcript_cons answer rest.1 rest.2).symm

/-- Only a run-time error changes what the exit code will be. -/
theorem sawRuntimeError_run? {text : String} (h : s.run? fuel text = some (answer, s')) :
    s'.sawRuntimeError = (s.sawRuntimeError || answer.outcome.isRuntimeError) := by
  have hgated := Session.gated fuel s text
  by_cases hreported : s.reported text = []
  · obtain ⟨houtcome, hsaw⟩ | ⟨e, houtcome, -, hsaw⟩ := hgated.opened hreported answer s' h
    · rw [houtcome, hsaw]
      exact (Bool.or_false _).symm
    · rw [houtcome, hsaw]
      exact (Bool.or_true _).symm
  · rw [hgated.closed hreported] at h
    cases h
    exact (Bool.or_false _).symm

/-- A session never forgets that a line ended in a run-time error. -/
theorem sawRuntimeError_runEach? {texts : List String}
    (h : s.runEach? fuel texts = some (answers, s')) :
    s'.sawRuntimeError =
      (s.sawRuntimeError || answers.any fun answer => answer.outcome.isRuntimeError) := by
  induction texts generalizing s answers with
  | nil =>
    cases h
    exact (Bool.or_false _).symm
  | cons text texts ih =>
    obtain ⟨⟨answer, s₁⟩, hrun, hrest⟩ := Option.bind_eq_some_iff.mp h
    obtain ⟨⟨rest, s₂⟩, heach, heq⟩ := Option.bind_eq_some_iff.mp hrest
    cases heq
    rw [ih heach, sawRuntimeError_run? hrun, Bool.or_assoc, List.any_cons]

end Prompt

/-- A line closes the prompt exactly if it has no other characters than those of line breaks. -/
theorem Prompt.isClosing_eq_decide (line : String) :
    isClosing line = decide (∀ c ∈ line.toList, c = '\r' ∨ c = '\n') := by
  rw [isClosing, Bool.eq_iff_iff, List.all_eq_true, decide_eq_true_iff]
  simp only [Bool.or_eq_true, beq_iff_eq]

/-- The prompt answers to a text as one session that runs the lines of the text in order, each once,
    up to the first line without any text. What the lines print stands behind the sign that asked
    for them, and each error, of whatever kind, is a message and a newline on the other stream. Only
    errors at run time make the prompt leave with a failure, also when lines behind them succeed. -/
theorem prompt_folds_session (fuel : Nat) (reading : Nat → Float) (text : String) :
    let closes (line : String) : Bool := decide (∀ c ∈ line.toList, c = '\r' ∨ c = '\n')
    let entered := (linesOf text).take ((linesOf text).findIdx closes)
    Command.execute? fuel reading .run none (Text.utf8 text.toList) =
      ((Session.start reading).runEach? fuel entered).map fun reply =>
        { exitCode := if reply.1.any (·.outcome.isRuntimeError) then 70 else 0
          stdout := String.join (reply.1.map fun answer => "> " ++ answer.output) ++ "> "
          stderr := String.join (reply.1.flatMap fun answer =>
            answer.outcome.faults.map fun fault => fault.message ++ "\n") } := by
  intro closes entered
  have hentered : entered = (linesOf text).take ((linesOf text).findIdx Prompt.isClosing) :=
    congrArg (fun p => (linesOf text).take ((linesOf text).findIdx p))
      (funext fun line => (Prompt.isClosing_eq_decide line).symm)
  change Prompt.run? fuel (.start reading) (Prompt.splitLines (Text.utf8 text.toList)) = _
  rw [Prompt.splitLines_utf8, Prompt.run?_utf8, ← hentered]
  refine Option.map_congr fun reply heach => ?_
  have hsaw : reply.2.sawRuntimeError = reply.1.any (·.outcome.isRuntimeError) :=
    Prompt.sawRuntimeError_runEach? heach
  rw [← hsaw]
  rfl

/-- A line that prints, one that is no program, one that ends in an error after it has printed, and
    one that prints again. Behind the line that closes the prompt is one that would print too. -/
def dialogue : String :=
  "var a = \"x\"; print a;\n" ++ "print a\n" ++ "print a; print -a;\n" ++ "print a + a;\n" ++
    "\r\n" ++ "print a;\n"

theorem prompt_folds_session_dialogue :
    Command.execute? 9 (fun _ => 0) .run none (Text.utf8 dialogue.toList) = some
      { exitCode := 70
        stdout := "> x\n" ++ "> " ++ "> x\n" ++ "> xx\n" ++ "> "
        stderr := "[line 2] Error at end: Expected ';' after value.\n" ++
          "Operand must be a number.\n [line: 1]\n" } := by
  rw [prompt_folds_session]
  simp only [← Prompt.isClosing_eq_decide]
  decide +kernel

end Lox

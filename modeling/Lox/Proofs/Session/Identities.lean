import Lox.Proofs.Execution.Effect
import Lox.Proofs.Grammar.Drawn
import Lox.Proofs.Session.Learning

/-!
Identities in sessions. The table of distances is a union of what scoping found in all lines that
were accepted. It stays one as long as every line has identities of its own: then no entry is ever
written over, and what the table says of a reference is what the line of the reference said of it.
-/

namespace Lox

namespace Analysis

/-- What is known about a source whose references draw their identities while it is read. -/
def drawing (drawn : Nat) (source : String) : Analysis :=
  let read := Tokens.ofString source
  let (reply, drawn) := Grammar.Drawn.program drawn read.tokens
  let program := reply.result.getD []
  { program
    textFaults := read.errors.map .lexical ++ reply.errors.map .grammatical
    findings := findingsOf program
    next := drawn }

theorem le_next_drawing (drawn : Nat) (source : String) : drawn ≤ (drawing drawn source).next :=
  (Grammar.agrees_program drawn _).le

/-- A source that is read without wrapping around has identities of its own. -/
theorem owns_drawing {drawn : Nat} {source : String}
    (h : (drawing drawn source).next ≤ identityCount) : (drawing drawn source).Owns drawn := by
  have hbears := Grammar.bearsAll_program drawn (Tokens.ofString source).tokens
  refine ⟨le_next_drawing drawn source, ?_, rfl⟩
  rw [← handedOut_eq_Ico h]
  exact hbears.identities

end Analysis

/-- A run in a process that has handed out identities elsewhere since the run before. -/
structure Turn extends Run where
  elsewhere : Nat

namespace Session

/-- How many identities are handed out after these turns, the latest first, if a source is analysed
    like this when so many are. -/
def handedIn (analyse : Nat → String → Analysis) : List Turn → Nat
  | [] => 0
  | t :: earlier => (analyse (handedIn analyse earlier + t.elsewhere) t.source).next

/-- The session as it is when it is its turn. -/
def onTurn (s : Session) (t : Turn) : Session :=
  { s.withReadings t.reading with next := s.next + t.elsewhere }

/-- What a turn finds out about its source. -/
def analysed (analyse : Nat → String → Analysis) (t : Turn) (earlier : List Turn) : Analysis :=
  analyse (handedIn analyse earlier + t.elsewhere) t.source

section Turns

variable (analyse : Nat → String → Analysis)

/-- The session after these turns, the latest first, if none of them ran out of fuel. -/
def afterTurns : List Turn → Option Session
  | [] => some (.start fun _ => 0)
  | t :: earlier =>
    (afterTurns earlier).bind fun s =>
      ((s.onTurn t).runAs? t.fuel (analyse (s.onTurn t).next t.source)).map Prod.snd

/-- The latest of these turns comes to this point. It may still be going on, or never end. -/
inductive Attains : List Turn → Point → Prop
  | first {earlier : List Turn} {t : Turn} {s : Session} {a : Analysis}
      (hs : afterTurns analyse earlier = some s) (ha : a = analyse (s.onTurn t).next t.source)
      (haccepted : a.faults = []) :
      Attains (t :: earlier) ⟨t.fuel, .run a.program, (s.onTurn t).begun a⟩
  | enters {turns : List Turn} {p q : Point} (h : Attains turns p) (henters : p.Enters q) :
      Attains turns q

/-- The table of distances after these turns. -/
def tableAfter : List Turn → Distances
  | [] => ∅
  | t :: earlier => (analysed analyse t earlier).learned (tableAfter earlier)

end Turns

variable {analyse : Nat → String → Analysis} {turns earlier : List Turn} {t : Turn}
  {s s' : Session} {p : Point}

/-- A session counts the identities that were handed in and holds the distances that were
    learned. -/
theorem afterTurns_some (h : afterTurns analyse turns = some s) :
    s.next = handedIn analyse turns ∧ s.machine.distances = tableAfter analyse turns := by
  induction turns generalizing s with
  | nil =>
    obtain rfl := Option.some.inj h
    exact ⟨rfl, rfl⟩
  | cons t earlier ih =>
    obtain ⟨s₀, hs₀, hmap⟩ := Option.bind_eq_some_iff.mp h
    obtain ⟨⟨answer, s'⟩, hrun, rfl⟩ := Option.map_eq_some_iff.mp hmap
    obtain ⟨hnext, hdistances⟩ := runAs?_some hrun
    obtain ⟨hnext₀, hdistances₀⟩ := ih hs₀
    have hline : analyse (s₀.onTurn t).next t.source = analysed analyse t earlier := by
      rw [analysed, ← hnext₀]
      rfl
    rw [hline] at hnext hdistances
    refine ⟨hnext, hdistances.trans ?_⟩
    rw [tableAfter, ← hdistances₀]
    rfl

/-- What a source is found to be when it is its turn. -/
theorem analyse_onTurn (h : afterTurns analyse earlier = some s) :
    analyse (s.onTurn t).next t.source = analysed analyse t earlier := by
  rw [analysed, ← (afterTurns_some h).1]
  rfl

/-- Nothing that a turn does changes the table. -/
theorem Attains.distances (h : Attains analyse turns p) :
    p.machine.distances = tableAfter analyse turns := by
  induction h with
  | @first earlier t s a hs ha haccepted =>
    rw [tableAfter, Analysis.learned, ← analyse_onTurn hs, ← ha,
      if_pos (List.isEmpty_iff.mpr haccepted), ← (afterTurns_some hs).2]
    rfl
  | enters _ henters ih =>
    rw [← ih]
    rcases henters.machine_cases with
      ⟨-, hevolves⟩ | ⟨body, -, hm⟩ | ⟨f, arguments, paren, -, -, hm⟩
    · exact hevolves.distances
    · rw [hm]
      rfl
    · rw [hm]
      rfl

/-- Every source has identities of its own. -/
def OwnLines (analyse : Nat → String → Analysis) (turns : List Turn) : Prop :=
  ∀ t earlier, t :: earlier <:+ turns →
    (analysed analyse t earlier).Owns (handedIn analyse earlier + t.elsewhere)

/-- Every line has identities of its own where these never wrap around. -/
theorem ownLines_ofSource (turns : List Turn) : OwnLines Analysis.ofSource turns :=
  fun _ _ _ => Analysis.owns_ofSource _ _

/-- Where they do, every line has its own as long as none is drawn twice. -/
theorem ownLines_drawing (h : handedIn .drawing turns ≤ identityCount) :
    OwnLines .drawing turns := by
  induction turns with
  | nil =>
    intro t earlier hsuffix
    simp at hsuffix
  | cons t rest ih =>
    have hle : handedIn .drawing rest ≤ handedIn .drawing (t :: rest) :=
      (Nat.le_add_right _ _).trans (Analysis.le_next_drawing _ t.source)
    intro t' earlier hsuffix
    rcases List.suffix_cons_iff.mp hsuffix with heq | hsuffix
    · obtain ⟨rfl, rfl⟩ := List.cons.inj heq
      exact Analysis.owns_drawing h
    · exact ih (hle.trans h) t' earlier hsuffix

namespace OwnLines

theorem tail (h : OwnLines analyse (t :: earlier)) : OwnLines analyse earlier :=
  fun _ _ hsuffix => h _ _ (hsuffix.trans (List.suffix_cons t earlier))

theorem head (h : OwnLines analyse (t :: earlier)) :
    (analysed analyse t earlier).Owns (handedIn analyse earlier + t.elsewhere) :=
  h t earlier (List.suffix_refl _)

/-- Each turn hands in no fewer identities than the turns before it. -/
theorem handedIn_le (h : OwnLines analyse (t :: earlier)) :
    handedIn analyse earlier ≤ handedIn analyse (t :: earlier) :=
  (Nat.le_add_right _ _).trans h.head.le

/-- Identities of a line are handed out when the line is read. -/
theorem lt_handedIn (h : OwnLines analyse turns) {ref : RefId} (hline : t :: earlier <:+ turns)
    (href : ref ∈ (analysed analyse t earlier).identities) : ref < handedIn analyse turns := by
  induction turns with
  | nil => simp at hline
  | cons t' rest ih =>
    rcases List.suffix_cons_iff.mp hline with heq | hline
    · obtain ⟨rfl, rfl⟩ := List.cons.inj heq
      exact (h.head.bounds href).2
    · exact (ih h.tail hline).trans_le h.handedIn_le

/-- The table knows no identity that is not handed out yet. -/
theorem tableAfter_of_le (h : OwnLines analyse turns) {ref : Nat}
    (href : handedIn analyse turns ≤ ref) : (tableAfter analyse turns)[ref]? = none := by
  induction turns with
  | nil => exact Std.TreeMap.getElem?_emptyc
  | cons t rest ih =>
    rw [tableAfter, h.head.learned_of_other (.inr href)]
    exact ih h.tail (h.handedIn_le.trans href)

/-- What the table says of a reference was found out about its own line. -/
theorem tableAfter_iff (h : OwnLines analyse turns) {ref : RefId} {d : Nat}
    (hline : t :: earlier <:+ turns) (href : ref ∈ (analysed analyse t earlier).identities) :
    (tableAfter analyse turns)[ref]? = some d ↔
      (analysed analyse t earlier).faults = [] ∧
        (ref, d) ∈ (analysed analyse t earlier).findings.distances := by
  induction turns with
  | nil => simp at hline
  | cons t' rest ih =>
    rw [tableAfter]
    rcases List.suffix_cons_iff.mp hline with heq | hline
    · obtain ⟨rfl, rfl⟩ := List.cons.inj heq
      have hle := (h.head.bounds href).1
      exact h.head.learned_of_mem href (h.tail.tableAfter_of_le (by omega))
    · have hlt := h.tail.lt_handedIn hline href
      rw [h.head.learned_of_other (.inl (hlt.trans_le (Nat.le_add_right _ _)))]
      exact ih h.tail hline

end OwnLines

/-- The identities of all references in these turns. -/
def identitiesIn (analyse : Nat → String → Analysis) : List Turn → List RefId
  | [] => []
  | t :: earlier => (analysed analyse t earlier).identities ++ identitiesIn analyse earlier

/-- The identities of all lines are among those that were handed in. -/
theorem OwnLines.identitiesIn_le (h : OwnLines analyse turns) :
    ↑(identitiesIn analyse turns) ≤ Multiset.Ico 0 (handedIn analyse turns) := by
  induction turns with
  | nil => exact Multiset.zero_le _
  | cons t earlier ih =>
    have hwithin :
        Multiset.Ico (handedIn analyse earlier + t.elsewhere) (analysed analyse t earlier).next ≤
          Multiset.Ico (handedIn analyse earlier) (analysed analyse t earlier).next := by
      rw [← Multiset.Ico_add_Ico_eq_Ico (Nat.le_add_right _ t.elsewhere) h.head.le]
      exact Multiset.le_add_left _ _
    rw [identitiesIn, ← Multiset.coe_add, add_comm,
      ← Multiset.Ico_add_Ico_eq_Ico (Nat.zero_le _) h.handedIn_le]
    exact add_le_add (ih h.tail) (h.head.identities.trans hwithin)

/-- No two references have the same identity, no entry of the table is written over, and the table
    says of a reference at any time after its line, while a later line runs or between lines, what
    it said of it at once. -/
structure NeverClashes (analyse : Nat → String → Analysis) (turns : List Turn) : Prop where
  nodup : (identitiesIn analyse turns).Nodup
  new : ∀ t earlier s, t :: earlier <:+ turns → afterTurns analyse earlier = some s →
    ((analysed analyse t earlier).findings.distances.map Prod.fst).Nodup ∧
      ∀ entry ∈ (analysed analyse t earlier).findings.distances,
        s.machine.distances[entry.1]? = none
  kept : ∀ t earlier ref d, t :: earlier <:+ turns → ref ∈ (analysed analyse t earlier).identities →
    (∀ p, Attains analyse turns p → (p.machine.distances[ref]? = some d ↔
      (analysed analyse t earlier).faults = [] ∧
        (ref, d) ∈ (analysed analyse t earlier).findings.distances)) ∧
    ∀ s, afterTurns analyse turns = some s → (s.machine.distances[ref]? = some d ↔
      (analysed analyse t earlier).faults = [] ∧
        (ref, d) ∈ (analysed analyse t earlier).findings.distances)

/-- Lines with identities of their own never clash. -/
theorem OwnLines.neverClashes (h : OwnLines analyse turns) : NeverClashes analyse turns where
  nodup := Multiset.coe_nodup.mp (Multiset.nodup_of_le h.identitiesIn_le Multiset.nodup_Ico)
  new t earlier s hline hs := by
    have hlines : OwnLines analyse (t :: earlier) :=
      fun _ _ hsuffix => h _ _ (hsuffix.trans hline)
    refine ⟨hlines.head.nodup.sublist hlines.head.sublist, fun entry hentry => ?_⟩
    have href := hlines.head.sublist.subset (List.mem_map_of_mem hentry)
    rw [(afterTurns_some hs).2]
    exact hlines.tail.tableAfter_of_le ((Nat.le_add_right _ _).trans (hlines.head.bounds href).1)
  kept t earlier ref d hline href := by
    refine ⟨fun p hp => ?_, fun s hs => ?_⟩
    · rw [hp.distances]
      exact h.tableAfter_iff hline href
    · rw [(afterTurns_some hs).2]
      exact h.tableAfter_iff hline href

/-- Identities never clash. The parses of a process return what they would return without any, and
    no two of the references that they return have the same, as long as the counter has not begun
    again. So in a session of such a process the table never forgets or changes what it says of a
    reference; nor does it where references are numbered behind the parse. -/
theorem identities_never_clash :
    (∀ parses, List.Forall₂ (fun p returned => Grammar.Parse.SameTree p.read.1 returned.1 ∧
        returned.2 = p.read.2) parses (Grammar.Parse.returned parses) ∧
      (Grammar.Parse.drawnIn parses ≤ identityCount → (Grammar.Parse.identities parses).Nodup)) ∧
    (∀ turns, handedIn .drawing turns ≤ identityCount → NeverClashes .drawing turns) ∧
    ∀ turns, NeverClashes .ofSource turns := by
  refine ⟨fun parses => ⟨Grammar.Parse.returned_sameTree parses, Grammar.Parse.nodup_identities⟩,
    fun turns h => ?_, fun turns => ?_⟩
  · exact (ownLines_drawing h).neverClashes
  · exact (ownLines_ofSource turns).neverClashes

/-- A loop whose increment is read in front of its body and stands behind it, a statement that is
    given up when it has drawn an identity, and an assignment whose target has drawn one too
    many. -/
def recoveringSource : String :=
  "for (var i = 0; i < 2; i = i + 1) print i; print (a ; fun f(a) \x7b return a = a; \x7d"

/-- A prompt that reads it between two other sources, and an expression elsewhere in the process. -/
def recoveringTurns : List Turn :=
  [⟨⟨fun _ => 0, 9, "print f(1);"⟩, 0⟩, ⟨⟨fun _ => 0, 9, recoveringSource⟩, 2⟩,
    ⟨⟨fun _ => 0, 9, "\x7b var b = 1; print b; \x7d"⟩, 0⟩]

/-- What the process has read then. -/
def recoveringParses : List Grammar.Parse :=
  [.program (Tokens.ofString "print f(1);").tokens,
    .program (Tokens.ofString recoveringSource).tokens,
    .expression (Tokens.ofString "c = 1").tokens,
    .program (Tokens.ofString "\x7b var b = 1; print b; \x7d").tokens]

/-- Lines with errors and loops between them leave nine references, all different. -/
theorem identities_never_clash_in_recovery :
    (Grammar.Parse.drawnIn recoveringParses = 13 ∧
      (Grammar.Parse.identities recoveringParses).length = 9 ∧
      (Grammar.Parse.identities recoveringParses).Nodup) ∧
    handedIn .drawing recoveringTurns = 13 ∧ NeverClashes .drawing recoveringTurns := by
  have hparses : Grammar.Parse.drawnIn recoveringParses = 13 := by decide +kernel
  have hturns : handedIn .drawing recoveringTurns = 13 := by decide +kernel
  have hroom : 13 ≤ identityCount := by decide
  refine ⟨⟨hparses, by decide +kernel, ?_⟩, hturns, ?_⟩
  · exact (identities_never_clash.1 recoveringParses).2 (hparses.trans_le hroom)
  · exact identities_never_clash.2.1 recoveringTurns (hturns.trans_le hroom)

end Session

end Lox

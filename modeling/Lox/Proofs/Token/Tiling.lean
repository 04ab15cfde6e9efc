import Lox.Proofs.Token.Similar

/-!
What a source is made of. The texts of its items stand in it one behind the other, with nothing but
blanks and comments between them, so that every character belongs to one item or is skipped.
-/

namespace Lox

/-- Blanks and comments in front of the text `behind`. A comment goes on to the next line break, or
    to the end of the source. -/
inductive Trivia (behind : List Char) : List Char → Prop
  | nil : Trivia behind []
  | blank {c : Char} {cs : List Char} (hc : Lexeme.isBlank c) (hcs : Trivia behind cs) :
      Trivia behind (c :: cs)
  | comment {body cs : List Char} (hbody : '\n' ∉ body) (hcs : Trivia behind cs)
      (hends : cs.head? = some '\n' ∨ cs = [] ∧ behind = []) :
      Trivia behind ('/' :: '/' :: (body ++ cs))

/-- What an item says of its text, which starts at byte `offset` and has `behind` behind it. -/
def Item.Describes (offset : Nat) (text behind : List Char) : Item → Prop
  | .ok t => t.isEnd = false ∧ t.offset = offset ∧ t.lexeme.toList = text ∧
      ∀ contents, t.kind = .string contents → text = '"' :: contents.toList ++ ['"']
  | .error ⟨_, .unexpectedCharacter c⟩ => text = [c]
  | .error ⟨_, .unterminatedString⟩ =>
      behind = [] ∧ ∃ contents, '"' ∉ contents ∧ text = '"' :: contents

/-- The part of a source that one item takes, with what is skipped in front of it. -/
structure Segment where
  trivia : List Char
  text : List Char
  item : Item

namespace Segment

def whole (s : Segment) : List Char :=
  s.trivia ++ s.text

/-- The segment has its place between `front` and `behind`. -/
structure Fits (s : Segment) (front behind : List Char) : Prop where
  text_ne_nil : s.text ≠ []
  trivia : Trivia (s.text ++ behind) s.trivia
  item : s.item.Describes (byteLength (front ++ s.trivia)) s.text behind

end Segment

/-- Behind `passed`, a source goes on with the segments and ends in blanks and comments. -/
structure Tiling (passed cs : List Char) (segments : List Segment) (trailing : List Char) :
    Prop where
  whole : cs = segments.flatMap Segment.whole ++ trailing
  ending : Trivia [] trailing
  fits : ∀ before s behind, segments = before ++ s :: behind →
    s.Fits (passed ++ before.flatMap Segment.whole) (behind.flatMap Segment.whole ++ trailing)

namespace Tiling

variable {passed cs trailing : List Char} {segments : List Segment} {s : Segment}

/-- Trivia alone are tiled by no segment. -/
theorem nil (h : Trivia [] cs) : Tiling passed cs [] cs :=
  ⟨rfl, h, fun _ _ _ heq => absurd heq (by simp)⟩

/-- A segment in front of a tiled rest. -/
theorem cons (hs : s.Fits passed cs) (h : Tiling (passed ++ s.whole) cs segments trailing) :
    Tiling passed (s.whole ++ cs) (s :: segments) trailing := by
  refine ⟨by rw [h.whole, List.flatMap_cons, List.append_assoc], h.ending, ?_⟩
  intro before s' behind heq
  cases before with
  | nil =>
    obtain ⟨rfl, rfl⟩ := List.cons.inj heq
    rw [List.flatMap_nil, List.append_nil, ← h.whole]
    exact hs
  | cons s'' before =>
    obtain ⟨rfl, htail⟩ := List.cons.inj heq
    rw [List.flatMap_cons, ← List.append_assoc]
    exact h.fits before s' behind htail

/-- An unterminated string is the last item before the end. -/
theorem eq_nil_of_unterminated (h : Tiling passed cs segments trailing)
    {before behind : List Segment} {line : Nat} (heq : segments = before ++ s :: behind)
    (hitem : s.item = .error ⟨line, .unterminatedString⟩) : behind = [] := by
  have hdescribes := (h.fits before s behind heq).item
  rw [hitem] at hdescribes
  obtain ⟨hnil, -⟩ := List.append_eq_nil_iff.mp hdescribes.1
  cases behind with
  | nil => rfl
  | cons s' behind =>
    have htext := (h.fits (before ++ [s]) s' behind (by simp [heq])).text_ne_nil
    rw [List.flatMap_cons] at hnil
    exact absurd (List.append_eq_nil_iff.mp (List.append_eq_nil_iff.mp hnil).1).2 htext

end Tiling

namespace Lexeme

/-- Up to the first `d` leads to the end or to a `d`. -/
theorem dropWhile_ne_cases (d : Char) (cs : List Char) :
    cs.dropWhile (· != d) = [] ∨ ∃ rest, cs.dropWhile (· != d) = d :: rest := by
  cases hrest : cs.dropWhile (· != d) with
  | nil => exact .inl rfl
  | cons c rest =>
    have hstop := @forall_mem_head?_dropWhile (· != d) cs c (by rw [hrest]; rfl)
    exact .inr ⟨rest, by rw [show c = d by simpa using hstop]⟩

theorem not_mem_takeWhile_ne (d : Char) (cs : List Char) : d ∉ cs.takeWhile (· != d) :=
  fun hmem => absurd (List.mem_takeWhile_imp hmem) (by simp)

/-- In a comment everything is skipped up to the line break. -/
theorem splitTrivia_true (cs : List Char) :
    splitTrivia true cs =
      (cs.takeWhile (· != '\n') ++ (splitTrivia false (cs.dropWhile (· != '\n'))).1,
        (splitTrivia false (cs.dropWhile (· != '\n'))).2) := by
  induction cs with
  | nil => rfl
  | cons c cs ih =>
    by_cases hc : c = '\n'
    · subst hc
      rfl
    · have htest : (c != '\n') = true := bne_iff_ne.mpr hc
      rw [splitTrivia]
      · simp [htest, ih]
      · exact fun _ h => absurd h (by decide)

/-- A comment is split off up to the end of its line. -/
theorem splitTrivia_comment (cs : List Char) :
    splitTrivia false ('/' :: '/' :: cs) =
      ('/' :: '/' :: (cs.takeWhile (· != '\n') ++
          (splitTrivia false (cs.dropWhile (· != '\n'))).1),
        (splitTrivia false (cs.dropWhile (· != '\n'))).2) := by
  rw [splitTrivia, splitTrivia_true]

/-- A blank is split off. -/
theorem splitTrivia_blank {c : Char} (h : isBlank c) (cs : List Char) :
    splitTrivia false (c :: cs) = (c :: (splitTrivia false cs).1, (splitTrivia false cs).2) := by
  rw [splitTrivia]
  · simp [h]
  · rintro _ - rfl
    exact absurd h (by decide)

/-- Neither a blank nor a comment starts here. -/
def StartsLexeme (c : Char) (cs : List Char) : Prop :=
  isBlank c = false ∧ ¬ (c = '/' ∧ cs.head? = some '/')

/-- Nothing is split off where a lexeme starts. -/
theorem StartsLexeme.splitTrivia_eq {c : Char} {cs : List Char} (h : StartsLexeme c cs) :
    splitTrivia false (c :: cs) = ([], c :: cs) := by
  rw [splitTrivia]
  · simp [h.1]
  · rintro cs' - rfl rfl
    exact h.2 ⟨rfl, rfl⟩

/-- Induction on what is skipped in front of the next lexeme. -/
@[elab_as_elim]
theorem trivia_induction {motive : List Char → Prop} (nil : motive [])
    (blank : ∀ c cs, isBlank c → motive cs → motive (c :: cs))
    (comment : ∀ cs, motive (cs.dropWhile (· != '\n')) → motive ('/' :: '/' :: cs))
    (lexeme : ∀ c cs, StartsLexeme c cs → motive (c :: cs)) (cs : List Char) : motive cs := by
  match cs with
  | [] => exact nil
  | c :: cs =>
    by_cases hblank : isBlank c
    · exact blank c cs hblank (trivia_induction nil blank comment lexeme cs)
    · by_cases hcomment : c = '/' ∧ cs.head? = some '/'
      · obtain ⟨rfl, hslash⟩ := hcomment
        obtain ⟨cs', rfl⟩ := List.head?_eq_some_iff.mp hslash
        have hshorter := (List.dropWhile_sublist (p := (· != '\n')) (l := cs')).length_le
        exact comment cs' (trivia_induction nil blank comment lexeme _)
      · exact lexeme c cs ⟨Bool.not_eq_true _ ▸ hblank, hcomment⟩
termination_by cs.length
decreasing_by
  all_goals simp_all
  omega

/-- What is skipped in front of a lexeme is blanks and comments. -/
theorem trivia_splitTrivia (cs : List Char) :
    Trivia (splitTrivia false cs).2 (splitTrivia false cs).1 := by
  induction cs using trivia_induction with
  | nil => exact .nil
  | blank c cs hblank ih =>
    rw [splitTrivia_blank hblank]
    exact .blank hblank ih
  | comment cs ih =>
    rw [splitTrivia_comment]
    refine .comment (not_mem_takeWhile_ne _ _) ih ?_
    -- The comment ends at a line break, which is skipped as a blank, or the source ends with it.
    rcases dropWhile_ne_cases '\n' cs with hrest | ⟨rest, hrest⟩
    · rw [hrest]
      exact .inr ⟨rfl, rfl⟩
    · rw [hrest, splitTrivia_blank (by decide)]
      exact .inl rfl
  | lexeme c cs h =>
    rw [h.splitTrivia_eq]
    exact .nil

/-- A lexeme starts behind what is skipped. -/
theorem startsLexeme_of_splitTrivia {cs trivia rest : List Char} {c : Char}
    (h : splitTrivia false cs = (trivia, c :: rest)) : StartsLexeme c rest := by
  induction cs using trivia_induction generalizing trivia with
  | nil => cases h
  | blank d cs hblank ih =>
    rw [splitTrivia_blank hblank] at h
    exact ih (Prod.ext rfl (Prod.mk.inj h).2)
  | comment cs ih =>
    rw [splitTrivia_comment] at h
    exact ih (Prod.ext rfl (Prod.mk.inj h).2)
  | lexeme d cs hstarts =>
    rw [hstarts.splitTrivia_eq] at h
    obtain ⟨-, rfl, rfl⟩ : _ ∧ d = c ∧ cs = rest := by simpa using h
    exact hstarts

/-- The item for a lexeme describes its text. -/
theorem describes_item (start : Position) (c : Char) (cs : List Char) :
    ((read c cs).item start).Describes start.offset (read c cs).text (read c cs).ahead := by
  unfold read
  split
  · unfold readString
    rcases dropWhile_ne_cases '"' cs with hrest | ⟨rest, hrest⟩
    · rw [hrest]
      exact ⟨rfl, _, not_mem_takeWhile_ne _ _, rfl⟩
    · rw [hrest]
      refine ⟨rfl, rfl, String.toList_ofList, ?_⟩
      rintro contents ⟨rfl⟩
      rw [String.toList_ofList]
  · split
    · exact ⟨rfl, rfl, String.toList_ofList, by simp [readNumber]⟩
    · split
      · unfold readWord
        dsimp only
        split <;> exact ⟨rfl, rfl, String.toList_ofList, by simp⟩
      · unfold readPunct
        split
        · exact ⟨rfl, rfl, String.toList_ofList, by simp⟩
        · exact ⟨rfl, rfl, String.toList_ofList, by simp⟩
        · rfl

end Lexeme

namespace Reader

/-- From `position` on, the reader cuts what is ahead into segments. -/
inductive Cuts : Position → List Char → List Segment → Prop
  | finish {position : Position} {cs trivia : List Char}
      (htrivia : Lexeme.splitTrivia false cs = (trivia, [])) : Cuts position cs []
  | item {position : Position} {cs trivia rest : List Char} {c : Char} {segments : List Segment}
      (htrivia : Lexeme.splitTrivia false cs = (trivia, c :: rest))
      (hrest : Cuts ((position.past trivia).past (Lexeme.read c rest).text)
        (Lexeme.read c rest).ahead segments) :
      Cuts position cs (⟨trivia, (Lexeme.read c rest).text,
        (Lexeme.read c rest).item (position.past trivia)⟩ :: segments)

/-- Every text can be cut into segments. -/
theorem exists_cuts (position : Position) (cs : List Char) :
    ∃ segments, Cuts position cs segments := by
  induction hlength : cs.length using Nat.strong_induction_on generalizing position cs with
  | _ n ih =>
    rcases htrivia : Lexeme.splitTrivia false cs with ⟨trivia, _ | ⟨c, rest⟩⟩
    · exact ⟨[], .finish htrivia⟩
    · have hshorter := Lexeme.length_ahead_lt c rest
      have hle := length_le_of_splitTrivia htrivia
      obtain ⟨segments, hrest⟩ := ih _ (by omega)
        ((position.past trivia).past (Lexeme.read c rest).text) (Lexeme.read c rest).ahead rfl
      exact ⟨_, .item htrivia hrest⟩

namespace Cuts

variable {position : Position} {cs passed : List Char} {segments : List Segment} {line : Nat}

/-- A position behind a text has the bytes of all that was passed. -/
theorem past_byteLength (line : Nat) (passed text : List Char) :
    Position.past ⟨line, byteLength passed⟩ text =
      ⟨line + text.count '\n', byteLength (passed ++ text)⟩ := by
  rw [byteLength_append]
  rfl

theorem append_of_splitTrivia_nil {trivia : List Char}
    (h : Lexeme.splitTrivia false cs = (trivia, [])) : trivia = cs := by
  have happend := Lexeme.splitTrivia_append false cs
  rw [h] at happend
  simpa using happend

/-- Trivia, the lexeme behind them and what is ahead make up the text. -/
theorem append_of_splitTrivia_cons {trivia rest : List Char} {c : Char}
    (h : Lexeme.splitTrivia false cs = (trivia, c :: rest)) :
    trivia ++ ((Lexeme.read c rest).text ++ (Lexeme.read c rest).ahead) = cs := by
  have happend := Lexeme.splitTrivia_append false cs
  rw [h] at happend
  rw [Lexeme.read_append]
  exact happend

/-- The items of the segments are what the reader yields, and then the end token. -/
theorem items_eq (h : Cuts position cs segments) {limit : Nat} (hlimit : cs.length < limit) :
    items limit ⟨position, cs, false⟩ =
      segments.map Segment.item ++
        [.ok (.atEnd (position.past cs).line (position.past cs).offset)] := by
  induction h generalizing limit with
  | @finish position cs trivia htrivia =>
    obtain ⟨limit, rfl⟩ := Nat.exists_eq_add_of_lt hlimit
    rw [items_of_splitTrivia_nil htrivia, append_of_splitTrivia_nil htrivia]
    rfl
  | @item position cs trivia rest c segments htrivia hrest ih =>
    obtain ⟨limit, rfl⟩ : ∃ n, limit = n + 1 := ⟨limit - 1, by omega⟩
    have hshorter := Lexeme.length_ahead_lt c rest
    have hle := length_le_of_splitTrivia htrivia
    have hitems := @ih limit (by omega)
    rw [← Position.past_append, ← Position.past_append, List.append_assoc,
      append_of_splitTrivia_cons htrivia] at hitems
    rw [items_of_splitTrivia_cons htrivia, ← Position.past_append, hitems]
    rfl

/-- The segments make up what is ahead. -/
theorem tiling (h : Cuts ⟨line, byteLength passed⟩ cs segments) :
    ∃ trailing, Tiling passed cs segments trailing := by
  generalize hposition : (⟨line, byteLength passed⟩ : Position) = position at h
  induction h generalizing passed line with
  | @finish position cs trivia htrivia =>
    have hskipped := Lexeme.trivia_splitTrivia cs
    rw [htrivia, append_of_splitTrivia_nil htrivia] at hskipped
    exact ⟨cs, .nil hskipped⟩
  | @item position cs trivia rest c segments htrivia hrest ih =>
    subst hposition
    have hskipped := Lexeme.trivia_splitTrivia cs
    rw [htrivia, ← Lexeme.read_append c rest] at hskipped
    have hitem := Lexeme.describes_item
      ⟨line + trivia.count '\n', byteLength (passed ++ trivia)⟩ c rest
    rw [past_byteLength, past_byteLength] at ih
    obtain ⟨trailing, htiling⟩ := ih rfl
    rw [List.append_assoc] at htiling
    have htiled := Tiling.cons (s := ⟨trivia, (Lexeme.read c rest).text, _⟩)
      ⟨Lexeme.read_text_ne_nil c rest, hskipped, hitem⟩ htiling
    rw [Segment.whole, List.append_assoc, append_of_splitTrivia_cons htrivia] at htiled
    rw [past_byteLength]
    exact ⟨trailing, htiled⟩

end Cuts

end Reader

end Lox

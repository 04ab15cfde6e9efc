import Lox.Proofs.Token.Scanning
import Lox.Proofs.Token.Word

namespace Lox

open Lexeme Text

variable {kind? : Option Kind} {kind : Kind} {c : Char} {ahead cs text : List Char}
  {s s' : Stretch}

/-- A text that starts with no word has no longest one. -/
theorem not_longest_of_wordless (h : Wordless ahead) : ¬ Longest kind? text ahead :=
  fun hlongest => h _ _ hlongest.word hlongest.isPrefix

/-- A quote that is never closed starts no word. -/
theorem wordless_of_unterminated (h : '"' ∉ cs) : Wordless ('"' :: cs) := by
  rintro kind? text hword ⟨rest, happend⟩
  obtain ⟨d, ds, rfl⟩ := List.exists_cons_of_ne_nil hword.ne_nil
  obtain ⟨rfl, rfl⟩ := List.cons.inj happend
  obtain ⟨contents, -, rfl⟩ := hword.of_quote
  simp at h

namespace Stretch.Munches

/-! What is taken settles which of the three it has to be. -/

/-- What is munched is a token or skipped exactly where it is the longest word. -/
theorem longest_iff (h : s.Munches ahead) :
    s.content = .ok kind? ∧ s.text = text ↔ Longest kind? text ahead := by
  unfold Munches at h
  constructor
  · rintro ⟨hcontent, rfl⟩
    rwa [hcontent] at h
  · intro hlongest
    cases hcontent : s.content with
    | ok kind?' =>
      rw [hcontent] at h
      obtain ⟨rfl, rfl⟩ := Longest.unique h hlongest
      exact ⟨rfl, rfl⟩
    | error problem =>
      rw [hcontent] at h
      cases problem with
      | unexpectedCharacter d => exact absurd hlongest (not_longest_of_wordless h.2.2.2)
      | unterminatedString =>
        obtain ⟨-, contents, rfl, hcontents⟩ := h
        exact absurd hlongest (not_longest_of_wordless (wordless_of_unterminated hcontents))

/-- A character is unexpected exactly where it starts no word and is no quote. -/
theorem unexpected_iff (h : s.Munches ahead) :
    s.content = .error (.unexpectedCharacter c) ↔
      ahead.head? = some c ∧ c ≠ '"' ∧ Wordless ahead := by
  unfold Munches at h
  constructor
  · intro hcontent
    rw [hcontent] at h
    exact h.2
  · rintro ⟨hhead, hquote, hwordless⟩
    cases hcontent : s.content with
    | ok kind? =>
      rw [hcontent] at h
      exact absurd h (not_longest_of_wordless hwordless)
    | error problem =>
      rw [hcontent] at h
      cases problem with
      | unexpectedCharacter d =>
        rw [Option.some.inj (hhead.symm.trans h.2.1)]
      | unterminatedString =>
        obtain ⟨-, contents, rfl, -⟩ := h
        exact absurd (Option.some.inj hhead).symm hquote

/-- A string is unterminated exactly where no quote closes it. -/
theorem unterminated_iff (h : s.Munches ahead) :
    s.content = .error .unterminatedString ↔
      ∃ contents, ahead = '"' :: contents ∧ '"' ∉ contents := by
  unfold Munches at h
  constructor
  · intro hcontent
    rw [hcontent] at h
    exact h.2
  · rintro ⟨contents, rfl, hcontents⟩
    cases hcontent : s.content with
    | ok kind? =>
      rw [hcontent] at h
      exact absurd h (not_longest_of_wordless (wordless_of_unterminated hcontents))
    | error problem =>
      rw [hcontent] at h
      cases problem with
      | unexpectedCharacter d => exact absurd (Option.some.inj h.2.1).symm h.2.2.1
      | unterminatedString => rfl

/-- A text is munched in one way only. -/
theorem unique (h : s.Munches ahead) (h' : s'.Munches ahead) : s = s' := by
  obtain ⟨text, content⟩ := s
  obtain ⟨text', content'⟩ := s'
  cases content with
  | ok kind? =>
    obtain ⟨hcontent, htext⟩ := h'.longest_iff.mpr (h.longest_iff.mp ⟨rfl, rfl⟩)
    exact congrArg₂ Stretch.mk htext.symm hcontent.symm
  | error problem =>
    cases problem with
    | unexpectedCharacter c =>
      obtain rfl := h'.unexpected_iff.mpr (h.unexpected_iff.mp rfl)
      exact congrArg (fun text => Stretch.mk text _) (h.1.trans h'.1.symm)
    | unterminatedString =>
      obtain rfl := h'.unterminated_iff.mpr (h.unterminated_iff.mp rfl)
      exact congrArg (fun text => Stretch.mk text _) (h.1.trans h'.1.symm)

theorem eq_first (h : s.Munches (c :: cs)) : s = first c cs :=
  h.unique (munches_first c cs)

theorem text_ne_nil (h : s.Munches ahead) : s.text ≠ [] := by
  unfold Munches at h
  cases hcontent : s.content with
  | ok kind? =>
    rw [hcontent] at h
    exact h.word.ne_nil
  | error problem =>
    rw [hcontent] at h
    cases problem with
    | unexpectedCharacter d => rw [h.1]; simp
    | unterminatedString =>
      obtain ⟨htext, contents, rfl, -⟩ := h
      rw [htext]
      simp

/-- A token is of a keyword just if all of it is the keyword. -/
theorem keyword_iff (h : s.Munches ahead) (hcontent : s.content = .ok (some kind)) :
    (∃ k, kind = .keyword k) ↔ s.text ∈ Keyword.all.map Keyword.spelling := by
  have hword := (h.longest_iff.mp ⟨hcontent, rfl⟩).word
  rw [List.mem_map]
  constructor
  · rintro ⟨k, rfl⟩
    generalize s.text = text at hword
    cases hword
    exact ⟨k, k.mem_all, rfl⟩
  · rintro ⟨k, -, hspelling⟩
    rw [← hspelling] at hword
    exact ⟨k, Option.some.inj (hword.kind_unique (.keyword k))⟩

end Stretch.Munches

/-- The text is taken apart into these stretches, each of which is what has to be taken. -/
inductive Munched : List Char → List Stretch → Prop
  | nil : Munched [] []
  | cons {s : Stretch} {cs : List Char} {ss : List Stretch} (hs : s.Munches (s.text ++ cs))
      (h : Munched cs ss) : Munched (s.text ++ cs) (s :: ss)

namespace Munched

variable {ss : List Stretch}

/-- Every text is munched to its end. -/
theorem exists_munched (cs : List Char) : ∃ ss, Munched cs ss := by
  induction hlength : cs.length using Nat.strong_induction_on generalizing cs with
  | _ n ih =>
    cases cs with
    | nil => exact ⟨[], .nil⟩
    | cons c cs =>
      have hmunches := Stretch.munches_first c cs
      have hpos := List.length_pos_of_ne_nil hmunches.text_ne_nil
      obtain ⟨rest, happend⟩ := Stretch.first_text_isPrefix c cs
      have hlengths := congrArg List.length happend
      rw [List.length_append] at hlengths
      obtain ⟨ss, hss⟩ := ih rest.length (by omega) rest rfl
      rw [← happend] at hmunches ⊢
      exact ⟨_, .cons hmunches hss⟩

/-- The stretches of a text make it up. -/
theorem flatMap_text (h : Munched cs ss) : cs = ss.flatMap Stretch.text := by
  induction h with
  | nil => rfl
  | cons _ _ ih => rw [List.flatMap_cons, ← ih]

/-- Each stretch is munched from the text that is left where it starts. -/
theorem munches (h : Munched cs ss) {before behind : List Stretch}
    (heq : ss = before ++ s :: behind) :
    s.Munches (s.text ++ behind.flatMap Stretch.text) := by
  induction h generalizing before with
  | nil => simp at heq
  | cons hs hrest ih =>
    cases before with
    | nil =>
      obtain ⟨rfl, rfl⟩ := List.cons.inj heq
      rwa [← hrest.flatMap_text]
    | cons s' before => exact ih (List.cons.inj heq).2

/-- The first of the stretches is the first stretch of the text. -/
theorem exists_first {s : Stretch} {cs : List Char} (h : s.Munches (s.text ++ cs)) :
    ∃ c rest, s.text ++ cs = c :: rest ∧ s = Stretch.first c rest := by
  obtain ⟨c, text, htext⟩ := List.exists_cons_of_ne_nil h.text_ne_nil
  rw [htext] at h
  exact ⟨c, text ++ cs, by rw [htext]; rfl, h.eq_first⟩

end Munched

section Items

variable {position : Position} {ss : List Stretch} {limit : Nat}

/-- The item for a stretch that starts here, if it is not skipped. -/
def Stretch.item? (position : Position) (s : Stretch) : Option Item :=
  match s.content with
  | .ok none => none
  | .ok (some kind) =>
    some (.ok ⟨kind, String.ofList s.text, (position.past s.text).line, position.offset⟩)
  | .error problem => some (.error ⟨position.line, problem⟩)

/-- The items for stretches one behind the other, and the end token. -/
def Stretch.items (position : Position) : List Stretch → List Item
  | [] => [.ok (.atEnd position.line position.offset)]
  | s :: ss => (s.item? position).toList ++ items (position.past s.text) ss

namespace Reader

/-- Readers that yield the same next have the same items. -/
theorem items_congr {r r' : Reader} (h : r.next? = r'.next?) : items limit r = items limit r' := by
  cases limit with
  | zero => rfl
  | succ limit => rw [items, items, h]

/-- Blanks and comments that are skipped first do not matter. -/
theorem items_skip {skipped rest : List Char}
    (h : splitTrivia false cs =
      (skipped ++ (splitTrivia false rest).1, (splitTrivia false rest).2)) :
    items limit ⟨position, cs, false⟩ = items limit ⟨position.past skipped, rest, false⟩ := by
  refine items_congr ?_
  simp only [next?, h, Position.past_append]

theorem item?_of_reading (reading : Reading) :
    (⟨reading.text, reading.content.map some⟩ : Stretch).item? position =
      some (reading.item position) := by
  unfold Stretch.item? Reading.item
  cases reading.content <;> rfl

/-- The reader yields the items of the stretches. -/
theorem items_of_munched (h : Munched cs ss) (hlimit : cs.length < limit) :
    items limit ⟨position, cs, false⟩ = Stretch.items position ss := by
  induction h generalizing position limit with
  | nil =>
    obtain ⟨limit, rfl⟩ := Nat.exists_eq_succ_of_ne_zero (Nat.ne_of_gt hlimit)
    have hend : splitTrivia false [] = ([], []) := rfl
    exact items_of_splitTrivia_nil hend
  | @cons s cs ss hs _ ih =>
    have hpos := List.length_pos_of_ne_nil hs.text_ne_nil
    rw [List.length_append] at hlimit
    obtain ⟨c, rest, happend, hfirst⟩ := Munched.exists_first hs
    rw [happend, Stretch.items]
    unfold Stretch.first at hfirst
    -- A blank and a comment lengthen what is skipped in front of the next item.
    split at hfirst
    · rename_i hblank
      subst hfirst
      obtain rfl : cs = rest := (List.cons.inj happend).2
      have hskip : splitTrivia false (c :: cs) =
          ([c] ++ (splitTrivia false cs).1, (splitTrivia false cs).2) :=
        splitTrivia_blank hblank cs
      rw [items_skip hskip]
      exact ih (by omega)
    split at hfirst
    · rename_i hslash
      obtain ⟨rfl, hhead⟩ := hslash
      obtain ⟨rest, rfl⟩ := List.head?_eq_some_iff.mp hhead
      subst hfirst
      obtain rfl : cs = rest.dropWhile (· != '\n') := by
        have hall := List.takeWhile_append_dropWhile (p := (· != '\n')) (l := '/' :: rest)
        exact List.append_cancel_left ((List.cons.inj happend).2.trans hall.symm)
      have hskip : splitTrivia false ('/' :: '/' :: rest) =
          ('/' :: ('/' :: rest).takeWhile (· != '\n') ++
              (splitTrivia false (rest.dropWhile (· != '\n'))).1,
            (splitTrivia false (rest.dropWhile (· != '\n'))).2) :=
        splitTrivia_comment rest
      rw [items_skip hskip]
      exact ih (by omega)
    · rename_i hblank hslash
      have hstarts : StartsLexeme c rest := ⟨Bool.not_eq_true _ ▸ hblank, hslash⟩
      subst hfirst
      obtain rfl : cs = (read c rest).ahead :=
        List.append_cancel_left (happend.trans (read_append c rest).symm)
      obtain ⟨limit, rfl⟩ : ∃ n, limit = n + 1 := ⟨limit - 1, by omega⟩
      rw [items_of_splitTrivia_cons hstarts.splitTrivia_eq, item?_of_reading]
      exact congrArg (_ :: ·) (ih (by omega))

end Reader

end Items

namespace Cursor

/-- What a step leaves of the lexeme it has taken: a kind that is pending, if any, or an error. -/
def made (outcome : Except LexicalError Unit) (c : Cursor) : Except LexicalProblem (Option Kind) :=
  match outcome with
  | .ok () => .ok c.pending
  | .error e => .error e.problem

/-- From this cursor on, a scan starts a lexeme in front of each of these stretches. -/
inductive Scans (source : List Char) : Cursor → List Stretch → Prop
  | finish {c : Cursor} (hend : c.isAtEnd source) : Scans source c []
  | lexeme {c c' : Cursor} {outcome : Except LexicalError Unit} {text : List Char}
      {ss : List Stretch} (hend : c.isAtEnd source = false)
      (hscan : scanToken? source { c with start := c.curr, pending := none } = some (outcome, c'))
      (htext : slice? source c'.start c'.curr = some text) (hrest : Scans source c' ss) :
      Scans source c (⟨text, made outcome c'⟩ :: ss)

variable {source front passed cs : List Char} {c : Cursor} {d : Char} {ss : List Stretch}

/-- A step takes the first stretch of what is ahead. -/
theorem scanToken?_first (h : c.Stands source front [] (d :: cs)) (hpending : c.pending = none) :
    ∃ outcome c' rest, c.scanToken? source = some (outcome, c') ∧
      c'.Stands source front (Stretch.first d cs).text rest ∧
      made outcome c' = (Stretch.first d cs).content := by
  unfold Stretch.first
  split
  · rename_i hblank
    obtain ⟨c', hscan, hstands, -, hpending', -⟩ := scanToken?_of_isBlank h hblank
    exact ⟨_, c', _, hscan, hstands, congrArg Except.ok (hpending'.trans hpending)⟩
  split
  · rename_i hslash
    obtain ⟨rfl, hhead⟩ := hslash
    obtain ⟨cs, rfl⟩ := List.head?_eq_some_iff.mp hhead
    obtain ⟨c', hscan, hstands, hkeeps⟩ := scanToken?_comment h
    exact ⟨_, c', _, hscan, hstands, congrArg Except.ok (hkeeps.pending.trans hpending)⟩
  · rename_i hblank hslash
    obtain ⟨c', hscan, hpast⟩ := scanToken?_of_startsLexeme h ⟨Bool.not_eq_true _ ▸ hblank, hslash⟩
    refine ⟨_, c', _, hscan, hpast.stands, ?_⟩
    unfold outcome made
    cases hcontent : (read d cs).content with
    | ok kind => exact congrArg Except.ok (hpast.pending kind hcontent)
    | error problem => rfl

/-- A cursor scans the stretches of the text that is ahead of it. -/
theorem scans_of_munched (h : Munched cs ss) (hrests : c.Rests source passed cs) :
    Scans source c ss := by
  induction h generalizing c passed with
  | nil => exact .finish hrests.isAtEnd_eq
  | @cons s cs ss hs _ ih =>
    obtain ⟨d, rest, happend, rfl⟩ := Munched.exists_first hs
    rw [happend] at hrests
    obtain ⟨outcome, c', rest', hscan, hstands, hmade⟩ := scanToken?_first hrests.stands rfl
    obtain rfl : cs = rest' := by
      have hsource := hrests.source_eq.symm.trans hstands.source_eq
      rw [← happend] at hsource
      exact List.append_cancel_left (List.append_cancel_left hsource)
    have hlexeme := Scans.lexeme hrests.isAtEnd_eq hscan hstands.slice?_eq (ih hstands.rests)
    rwa [hmade] at hlexeme

end Cursor

/-- At every place where a scan starts a lexeme, it takes the longest word there, a keyword if all
    of it is one. It reports an unexpected character just where there is no word and no quote, and a
    string that is not terminated just where there is a quote and no other quote behind it. -/
theorem scan_munches (source : String) :
    ∃ stretches, Cursor.Scans source.toList .atStart stretches ∧
      readItems source = Stretch.items ⟨1, 0⟩ stretches ∧
      source.toList = stretches.flatMap Stretch.text ∧
      ∀ before s behind ahead, stretches = before ++ s :: behind →
        ahead = (s :: behind).flatMap Stretch.text →
        (∀ kind? text, s.content = .ok kind? ∧ s.text = text ↔ Longest kind? text ahead) ∧
        (∀ kind, s.content = .ok (some kind) →
          ((∃ k, kind = .keyword k) ↔ s.text ∈ Keyword.all.map Keyword.spelling)) ∧
        (∀ c, s.content = .error (.unexpectedCharacter c) ↔
          ahead.head? = some c ∧ c ≠ '"' ∧ Wordless ahead) ∧
        (s.content = .error .unterminatedString ↔
          ∃ contents, ahead = '"' :: contents ∧ '"' ∉ contents) := by
  obtain ⟨stretches, h⟩ := Munched.exists_munched source.toList
  have hrests : Cursor.atStart.Rests source.toList [] source.toList := ⟨rfl, rfl⟩
  refine ⟨stretches, Cursor.scans_of_munched h hrests,
    Reader.items_of_munched h (Nat.lt_succ_self _), h.flatMap_text, ?_⟩
  rintro before s behind ahead hstretches rfl
  have hmunches := h.munches hstretches
  exact ⟨fun _ _ => hmunches.longest_iff, fun _ => hmunches.keyword_iff,
    fun _ => hmunches.unexpected_iff, hmunches.unterminated_iff⟩

end Lox

import Lox.Proofs.Token.Cursor

/-!
A cursor reads what the reader reads. Each of its steps succeeds, whatever the source is, and comes
to where the reader comes.
-/

namespace Lox

open Text

namespace Cursor

section Lexemes

/-! What the steps read is what the reader reads there. -/

variable {source front text ahead cs : List Char} {c c' : Cursor} {d : Char}

/-- From `c`, the cursor has come to `c'` behind a lexeme. -/
structure Past (source front : List Char) (c c' : Cursor) (reading : Lexeme.Reading) : Prop where
  stands : c'.Stands source front reading.text reading.ahead
  line : c'.line = c.line + reading.text.count '\n'
  done : c'.done = c.done
  pending : ∀ kind, reading.content = .ok kind → c'.pending = some kind

/-- A step that keeps its line and its state may come first. -/
theorem Past.of_keeps {c₁ c₂ : Cursor} {reading : Lexeme.Reading}
    (h : Past source front c₁ c₂ reading) (hkeeps : c.Keeps c₁) :
    Past source front c c₂ reading :=
  ⟨h.stands, hkeeps.line ▸ h.line, h.done.trans hkeeps.done, h.pending⟩

/-- A lexeme that is read and recognized. -/
theorem past_recognize (reading : Lexeme.Reading) (kind : Kind)
    (hstands : c'.Stands source front reading.text reading.ahead)
    (hline : c'.line = c.line + reading.text.count '\n') (hdone : c'.done = c.done)
    (hcontent : reading.content = .ok kind) :
    Past source front c (c'.recognize kind).2 reading where
  stands := ⟨hstands.source_eq, hstands.start_eq, hstands.curr_eq⟩
  line := hline
  done := hdone
  pending kind' hkind := by
    rw [hcontent] at hkind
    cases hkind
    rfl

/-- What a step says of the lexeme it has read. -/
def outcome (line : Nat) (reading : Lexeme.Reading) : Except LexicalError Unit :=
  match reading.content with
  | .ok _ => .ok ()
  | .error problem => .error ⟨line, problem⟩

section Tests

/-- No wide character is a digit. -/
theorem isDigit_of_wide (hd : Wide d) : Lexeme.isDigit d = false := by
  simp [Lexeme.isDigit, not_le_of_wide hd (d := '9') (by decide)]

theorem isLetter_of_wide (hd : Wide d) : Lexeme.isLetter d = false := by
  simp [Lexeme.isLetter, not_le_of_wide hd (d := 'z') (by decide),
    not_le_of_wide hd (d := 'Z') (by decide), wide_ne hd (d := '_') (by decide)]

/-- Digits are recognized byte by byte. -/
theorem bytewise_isDigit : Bytewise Lexeme.isDigit :=
  bytewise_of_wide false fun _ => isDigit_of_wide

theorem bytewise_isWordChar : Bytewise Lexeme.isWordChar :=
  bytewise_of_wide false fun d hd => by
    rw [Lexeme.isWordChar, isLetter_of_wide hd, isDigit_of_wide hd]
    rfl

theorem count_newline_takeWhile {test : Char → Bool} (h : test '\n' = false) (cs : List Char) :
    (cs.takeWhile test).count '\n' = 0 :=
  List.count_eq_zero.mpr fun hmem => by
    have hpass := List.mem_takeWhile_imp hmem
    rw [h] at hpass
    cases hpass

end Tests

section Numbers

/-- The bytes of a number have the value that the reader gives it. -/
theorem numberOf_append {whole fraction : List Char} (hwhole : ∀ d ∈ whole, Lexeme.isDigit d)
    (hfraction : ∀ d ∈ fraction, Lexeme.isDigit d) :
    numberOf (whole ++ Lexeme.fractionText fraction) = Lexeme.valueOf whole fraction := by
  have hread := congrArg Lexeme.Reading.content (Lexeme.readNumber_digits hwhole hfraction)
  exact Kind.number.inj (Except.ok.inj hread)

theorem count_newline_fractionText {fraction : List Char}
    (h : ∀ d ∈ fraction, Lexeme.isDigit d) : (Lexeme.fractionText fraction).count '\n' = 0 := by
  refine List.count_eq_zero.mpr fun hmem => ?_
  rcases Lexeme.mem_fractionText hmem with heq | hmem
  · exact absurd heq (by decide)
  · exact absurd (h _ hmem) (by decide)

theorem stands_of_splitFraction_eq (h : c.Stands source front text ahead)
    (hsplit : Lexeme.splitFraction ahead = ([], ahead)) :
    c.Stands source front (text ++ Lexeme.fractionText (Lexeme.splitFraction ahead).1)
      (Lexeme.splitFraction ahead).2 := by
  rw [hsplit]
  simpa [Lexeme.fractionText] using h

/-- A cursor takes the fraction that the reader splits off. -/
theorem advanceFraction?_eq (h : c.Stands source front text ahead) :
    ∃ c', c.advanceFraction? source = some c' ∧
      c'.Stands source front (text ++ Lexeme.fractionText (Lexeme.splitFraction ahead).1)
        (Lexeme.splitFraction ahead).2 ∧
      c.Keeps c' := by
  rw [advanceFraction?, h.peek_beq (d := '.') (by decide) (by decide)]
  match ahead with
  | [] => exact ⟨c, rfl, stands_of_splitFraction_eq h rfl, .rfl⟩
  | d :: es =>
    by_cases hpoint : d = '.'
    · subst hpoint
      rw [h.test_peekNext (by decide) bytewise_isDigit (by decide)]
      match es with
      | [] => exact ⟨c, rfl, stands_of_splitFraction_eq h rfl, .rfl⟩
      | e :: es =>
        cases he : Lexeme.isDigit e with
        | false =>
          have hsplit : Lexeme.splitFraction ('.' :: e :: es) = ([], '.' :: e :: es) := by
            simp [Lexeme.splitFraction, he]
          exact ⟨c, by simp [he], stands_of_splitFraction_eq h hsplit, .rfl⟩
        | true =>
          obtain ⟨c₁, hadvance, hstands₁, hkeeps₁⟩ := h.advance?_of_not_wide (by decide)
          obtain ⟨c₂, hdigits, hstands₂, hkeeps₂⟩ :=
            hstands₁.advanceWhile?_eq bytewise_isDigit (by decide)
          refine ⟨c₂, by simp [he, hadvance, hdigits], ?_, hkeeps₁.trans hkeeps₂⟩
          simpa [Lexeme.splitFraction, he, Lexeme.fractionText] using hstands₂
    · have hsplit : Lexeme.splitFraction (d :: es) = ([], d :: es) :=
        Lexeme.splitFraction_of_ne hpoint
      exact ⟨c, by simp [hpoint], stands_of_splitFraction_eq h hsplit, .rfl⟩

/-- A cursor takes the number that the reader takes. -/
theorem parseNumber?_eq (h : c.Stands source front [d] cs) (hd : Lexeme.isDigit d) :
    ∃ c', c.parseNumber? source = some (.ok (), c') ∧
      Past source front c c' (Lexeme.readNumber (d :: cs)) := by
  obtain ⟨c₁, hwhole, hstands₁, hkeeps₁⟩ := h.advanceWhile?_eq bytewise_isDigit (by decide)
  obtain ⟨c₂, hfraction, hstands₂, hkeeps₂⟩ := advanceFraction?_eq hstands₁
  have hkeeps := hkeeps₁.trans hkeeps₂
  have htake : (d :: cs).takeWhile Lexeme.isDigit = [d] ++ cs.takeWhile Lexeme.isDigit :=
    List.takeWhile_cons_of_pos hd
  have hdrop : (d :: cs).dropWhile Lexeme.isDigit = cs.dropWhile Lexeme.isDigit :=
    List.dropWhile_cons_of_pos hd
  rw [← htake, ← hdrop] at hstands₂
  have hnumber := numberOf_append (fun _ => List.mem_takeWhile_imp (l := d :: cs))
    (fun _ => @Lexeme.isDigit_of_mem_splitFraction ((d :: cs).dropWhile Lexeme.isDigit) _)
  have hlines : (Lexeme.readNumber (d :: cs)).text.count '\n' = 0 := by
    rw [Lexeme.readNumber_text, List.count_append, count_newline_takeWhile (by decide),
      count_newline_fractionText fun _ => Lexeme.isDigit_of_mem_splitFraction]
  refine ⟨_, ?_, past_recognize (Lexeme.readNumber (d :: cs)) _
    (Lexeme.readNumber_text (d :: cs) ▸ hstands₂) (by rw [hkeeps.line, hlines]; rfl)
    hkeeps.done rfl⟩
  simp [parseNumber?, hwhole, hfraction, hstands₂.slice?_eq, hnumber]
  rfl

end Numbers

section Words

/-- A keyword is found by its bytes just as by its characters. -/
theorem find?_utf8_spelling (word : List Char) :
    (Keyword.all.find? fun k => utf8 k.spelling = utf8 word) = Keyword.ofSpelling? word := by
  simp only [utf8_inj]
  rfl

/-- A cursor takes the word that the reader takes, and finds the same keyword. -/
theorem parseIdentifier?_eq (h : c.Stands source front [d] cs) (hd : Lexeme.isWordChar d) :
    ∃ c', c.parseIdentifier? source = some (.ok (), c') ∧
      Past source front c c' (Lexeme.readWord (d :: cs)) := by
  obtain ⟨c₁, hword, hstands, hkeeps⟩ := h.advanceWhile?_eq bytewise_isWordChar (by decide)
  have htake : (d :: cs).takeWhile Lexeme.isWordChar = [d] ++ cs.takeWhile Lexeme.isWordChar :=
    List.takeWhile_cons_of_pos hd
  have hdrop : (d :: cs).dropWhile Lexeme.isWordChar = cs.dropWhile Lexeme.isWordChar :=
    List.dropWhile_cons_of_pos hd
  rw [← htake, ← hdrop] at hstands
  have hlines : (Lexeme.readWord (d :: cs)).text.count '\n' = 0 :=
    count_newline_takeWhile (by decide) (d :: cs)
  have hrange : c₁.start ≤ c₁.curr ∧ c₁.curr ≤ byteLength source :=
    ⟨by rw [hstands.start_eq, hstands.curr_eq]; exact Nat.le_add_right _ _, hstands.curr_le⟩
  rw [parseIdentifier?, hword, Option.bind_eq_bind, Option.bind_some, if_pos hrange,
    hstands.bytes_eq]
  dsimp only
  rw [find?_utf8_spelling]
  have hpast := fun kind => past_recognize (Lexeme.readWord (d :: cs)) kind hstands
    (by rw [hkeeps.line, hlines]; rfl) hkeeps.done
  cases hkeyword : Keyword.ofSpelling? ((d :: cs).takeWhile Lexeme.isWordChar) with
  | some k => exact ⟨_, rfl, hpast (.keyword k) (by rw [Lexeme.readWord, hkeyword])⟩
  | none => exact ⟨_, rfl, hpast .identifier (by rw [Lexeme.readWord, hkeyword])⟩

end Words

section Strings

/-- A cursor takes the string that the reader takes, with the lines in it, or finds it
    unterminated. -/
theorem parseString?_eq (h : c.Stands source front ['"'] cs) :
    ∃ c', c.parseString? source = some (outcome c.line (Lexeme.readString cs), c') ∧
      Past source front c c' (Lexeme.readString cs) := by
  obtain ⟨c₁, hcontents, hstands₁, hline₁, hdone₁⟩ := h.advanceString?_eq
  rw [parseString?, hcontents, Option.bind_eq_bind, Option.bind_some, hstands₁.isAtEnd_eq]
  unfold Lexeme.readString
  rcases Lexeme.dropWhile_ne_cases '"' cs with hrest | ⟨rest, hrest⟩
  · rw [hrest] at hstands₁ ⊢
    refine ⟨c₁, rfl, hstands₁, ?_, hdone₁, fun _ => by simp⟩
    rw [hline₁]
    simp
  · rw [hrest] at hstands₁ ⊢
    obtain ⟨c₂, hadvance, hstands₂, hkeeps₂⟩ := hstands₁.advance?_of_not_wide (by decide)
    have hslice : slice? source (c₂.start + 1) (c₂.curr - 1) =
        some (cs.takeWhile (· != '"')) := by
      have hquote : byteLength ['"'] = 1 := rfl
      have hfront : c₂.start + 1 = byteLength (front ++ ['"']) := by
        rw [hstands₂.start_eq, byteLength_append, hquote]
      have hbehind : c₂.curr - 1 =
          byteLength (front ++ ['"']) + byteLength (cs.takeWhile (· != '"')) := by
        rw [hstands₂.curr_eq]
        simp only [byteLength_append, hquote]
        omega
      have hsource : source = front ++ ['"'] ++ (cs.takeWhile (· != '"') ++ '"' :: rest) := by
        rw [hstands₂.source_eq]
        simp
      rw [hsource, hfront, hbehind, slice?_append]
    refine ⟨_, by simp [hadvance, hslice]; rfl, past_recognize _ _ hstands₂ ?_ ?_ rfl⟩
    · rw [hkeeps₂.line, hline₁]
      simp
    · exact hkeeps₂.done.trans hdone₁

end Strings

section Punctuation

/-- Nothing but punctuation is left to be read. -/
def IsPlain (d : Char) : Prop :=
  d ≠ '"' ∧ Lexeme.isDigit d = false ∧ Lexeme.isLetter d = false

instance (d : Char) : Decidable (IsPlain d) :=
  inferInstanceAs (Decidable (_ ∧ _ ∧ _))

/-- What is plain is read as punctuation. -/
theorem IsPlain.read_eq (h : IsPlain d) (cs : List Char) :
    Lexeme.read d cs = Lexeme.readPunct d cs := by
  simp [Lexeme.read, h.1, h.2.1, h.2.2]

/-- A character and an equals sign are read as one where they spell an operator. -/
theorem readPunct_of_pair {p : Punct} (h : Punct.ofSpelling? [d, '='] = some p) (cs : List Char) :
    Lexeme.readPunct d ('=' :: cs) = ⟨.ok (.punct p), [d, '='], cs⟩ :=
  Lexeme.readPunct_of_some h

/-- Otherwise the character is read alone. -/
theorem readPunct_of_not_pair (h : cs.head? = some '=' → Punct.ofSpelling? [d, '='] = none) :
    Lexeme.readPunct d cs = ⟨(Lexeme.readPunct d []).content, [d], cs⟩ := by
  match cs with
  | [] => 
    unfold Lexeme.readPunct
    split <;> rfl
  | e :: cs =>
    refine Lexeme.readPunct_of_none ?_
    by_cases he : e = '='
    · exact he ▸ h (congrArg some he)
    · exact Lexeme.ofSpelling?_of_ne he d

/-- A cursor behind punctuation has it pending. -/
theorem past_punct {p : Punct} {reading : Lexeme.Reading}
    (hstands : c'.Stands source front reading.text reading.ahead) (hkeeps : c.Keeps c')
    (hcontent : reading.content = .ok (.punct p)) (hlines : reading.text.count '\n' = 0) :
    ∃ c'', some (c'.recognize (.punct p)) = some (outcome c.line reading, c'') ∧
      Past source front c c'' reading := by
  refine ⟨_, ?_, past_recognize reading _ hstands (by rw [hlines, hkeeps.line]; rfl) hkeeps.done
    hcontent⟩
  rw [outcome, hcontent]
  rfl

/-- Punctuation that is no half of a pair. -/
theorem recognize_eq {p : Punct} (hstands : c'.Stands source front [d] cs) (hkeeps : c.Keeps c')
    (hplain : IsPlain d) (hbreak : d ≠ '\n')
    (hp : (Lexeme.readPunct d []).content = .ok (.punct p))
    (hpair : cs.head? = some '=' → Punct.ofSpelling? [d, '='] = none) :
    ∃ c'', some (c'.recognize (.punct p)) = some (outcome c.line (Lexeme.read d cs), c'') ∧
      Past source front c c'' (Lexeme.read d cs) := by
  rw [hplain.read_eq, readPunct_of_not_pair hpair]
  exact past_punct hstands hkeeps hp (by simp [hbreak])

/-- A cursor takes the longer of two operators where it can. -/
theorem either?_eq {p q : Punct} (hstands : c'.Stands source front [d] cs) (hkeeps : c.Keeps c')
    (hplain : IsPlain d) (hbreak : d ≠ '\n')
    (hp : (Lexeme.readPunct d []).content = .ok (.punct p))
    (hq : Punct.ofSpelling? [d, '='] = some q) :
    ∃ c'', c'.either? source q p = some (outcome c.line (Lexeme.read d cs), c'') ∧
      Past source front c c'' (Lexeme.read d cs) := by
  by_cases hequal : cs.head? = some '='
  · obtain ⟨cs, rfl⟩ := List.head?_eq_some_iff.mp hequal
    obtain ⟨c₂, hmatch, hstands₂, hkeeps₂⟩ :=
      hstands.matchByte?_of_head (by decide) (by decide)
    rw [hplain.read_eq, readPunct_of_pair hq, either?, hmatch]
    exact past_punct hstands₂ (hkeeps.trans hkeeps₂) rfl (by simp [hbreak])
  · rw [either?, hstands.matchByte?_of_ne (by decide) (by decide) hequal]
    exact recognize_eq hstands hkeeps hplain hbreak hp fun h => absurd h hequal

/-- A character that begins no punctuation is unexpected. -/
theorem readPunct_unexpected (h : ∀ p : Punct, p.spelling.head? ≠ some d) (cs : List Char) :
    Lexeme.readPunct d cs = ⟨.error (.unexpectedCharacter d), [d], cs⟩ := by
  have hnone : ∀ ds, Punct.ofSpelling? (d :: ds) = none := by
    intro ds
    rw [Punct.ofSpelling?, List.find?_eq_none]
    intro p _ heq
    exact h p (by rw [of_decide_eq_true heq]; rfl)
  rw [Lexeme.readPunct, hnone, hnone]

/-- A cursor moves over an unexpected character as a whole. -/
theorem unexpected?_eq (hstands : c.Stands source front [] (d :: cs))
    (hstart : c'.start = byteLength front) (hkeeps : c.Keeps c') (hplain : IsPlain d)
    (hbreak : d ≠ '\n') (hnone : ∀ p : Punct, p.spelling.head? ≠ some d) :
    ∃ c'', c'.unexpected? source = some (outcome c.line (Lexeme.read d cs), c'') ∧
      Past source front c c'' (Lexeme.read d cs) := by
  have hsource : source = front ++ d :: cs := hstands.source_eq
  rw [hplain.read_eq, readPunct_unexpected hnone]
  refine ⟨{ c' with curr := c'.start + d.utf8Size }, ?_, ⟨hsource, hstart, ?_⟩, ?_, hkeeps.done,
    fun _ => by simp⟩
  · rw [unexpected?, hsource, hstart, splitAt?_append, ← hkeeps.line]
    rfl
  · simp [byteLength, hstart]
  · simp [hkeeps.line, hbreak]

end Punctuation

/-- A lexeme is read as the reader reads it. -/
theorem scanToken?_of_startsLexeme (h : c.Stands source front [] (d :: cs))
    (hd : Lexeme.StartsLexeme d cs) :
    ∃ c', c.scanToken? source = some (outcome c.line (Lexeme.read d cs), c') ∧
      Past source front c c' (Lexeme.read d cs) := by
  have hbreak : d ≠ '\n' := by
    rintro rfl
    exact absurd hd.1 (by decide)
  obtain ⟨b, hadvance, ⟨rfl, hwide⟩ | ⟨hb, hwide⟩⟩ := h.advance?_eq
  · obtain ⟨c₁, hnext, hstands, hkeeps⟩ := h.advance?_of_not_wide hwide
    rw [scanToken?, hnext, Option.bind_eq_bind, Option.bind_some]
    dsimp only
    split
    iterate 10
      · exact recognize_eq hstands hkeeps (by decide) (by decide) rfl fun _ => rfl
    iterate 4
      · exact either?_eq hstands hkeeps (by decide) (by decide) rfl rfl
    iterate 4
      · exact absurd hd.1 (by decide)
    · rw [hstands.matchByte?_of_ne (by decide) (by decide) fun hslash => hd.2 ⟨rfl, hslash⟩]
      exact recognize_eq hstands hkeeps (by decide) (by decide) rfl fun _ => rfl
    · obtain ⟨c₂, hparse, hpast⟩ := parseString?_eq hstands
      exact ⟨c₂, hkeeps.line ▸ hparse, hpast.of_keeps hkeeps⟩
    · rename_i hquote
      have hnone : ∀ p : Punct, p.spelling.head? ≠ some b := by
        intro p hp
        cases p <;> cases hp <;> contradiction
      rw [Lexeme.read, if_neg hquote]
      split
      · rename_i hdigit
        obtain ⟨c₂, hparse, hpast⟩ := parseNumber?_eq hstands hdigit
        exact ⟨c₂, hparse, hpast.of_keeps hkeeps⟩
      · split
        · rename_i hdigit hletter
          obtain ⟨c₂, hparse, hpast⟩ :=
            parseIdentifier?_eq hstands (Lexeme.isWordChar_of_isLetter hletter)
          exact ⟨c₂, hparse, hpast.of_keeps hkeeps⟩
        · rename_i hdigit hletter
          have hplain : IsPlain b :=
            ⟨hquote, Bool.not_eq_true _ ▸ hdigit, Bool.not_eq_true _ ▸ hletter⟩
          rw [← hplain.read_eq]
          exact unexpected?_eq h hstands.start_eq hkeeps hplain hbreak hnone
  · have hplain : IsPlain d :=
      ⟨wide_ne hwide (by decide), isDigit_of_wide hwide, isLetter_of_wide hwide⟩
    rw [scanToken?, hadvance, Option.bind_eq_bind, Option.bind_some]
    dsimp only
    split
    iterate 20
      · exact absurd hb (by decide)
    rw [isDigit_of_wide hb, isLetter_of_wide hb]
    refine unexpected?_eq h h.start_eq ⟨rfl, rfl, rfl⟩ hplain hbreak fun p hp => ?_
    cases p <;> cases hp <;> exact absurd hwide (by decide)

/-- A blank is passed and leaves nothing, but a line break counts. -/
theorem scanToken?_of_isBlank (h : c.Stands source front [] (d :: cs)) (hd : Lexeme.isBlank d) :
    ∃ c', c.scanToken? source = some (.ok (), c') ∧ c'.Stands source front [d] cs ∧
      c'.line = c.line + [d].count '\n' ∧ c'.pending = c.pending ∧ c'.done = c.done := by
  have hwide : ¬ Wide d := by
    intro hwide
    simp only [Lexeme.isBlank, Bool.or_eq_true, beq_iff_eq] at hd
    rcases hd with ((rfl | rfl) | rfl) | rfl <;> exact absurd hwide (by decide)
  obtain ⟨c₁, hadvance, hstands, hkeeps⟩ := h.advance?_of_not_wide hwide
  rw [scanToken?, hadvance, Option.bind_eq_bind, Option.bind_some]
  simp only [Lexeme.isBlank, Bool.or_eq_true, beq_iff_eq] at hd
  rcases hd with ((rfl | rfl) | rfl) | rfl
  iterate 3
    · exact ⟨c₁, rfl, hstands, hkeeps.line, hkeeps.pending, hkeeps.done⟩
  · exact ⟨_, rfl, ⟨hstands.source_eq, hstands.start_eq, hstands.curr_eq⟩,
      congrArg (· + 1) hkeeps.line, hkeeps.pending, hkeeps.done⟩

/-- A comment is passed up to the end of its line. -/
theorem scanToken?_comment (h : c.Stands source front [] ('/' :: '/' :: cs)) :
    ∃ c', c.scanToken? source = some (.ok (), c') ∧
      c'.Stands source front ('/' :: '/' :: cs.takeWhile (· != '\n')) (cs.dropWhile (· != '\n')) ∧
      c.Keeps c' := by
  obtain ⟨c₁, hadvance, hstands₁, hkeeps₁⟩ := h.advance?_of_not_wide (by decide)
  obtain ⟨c₂, hmatch, hstands₂, hkeeps₂⟩ := hstands₁.matchByte?_of_head (by decide) (by decide)
  obtain ⟨c₃, hskip, hstands₃, hkeeps₃⟩ := hstands₂.skipComment?_eq
  refine ⟨c₃, ?_, hstands₃, (hkeeps₁.trans hkeeps₂).trans hkeeps₃⟩
  rw [scanToken?, hadvance, Option.bind_eq_bind, Option.bind_some]
  simp [hmatch, hskip]

end Lexemes

section Items

variable {source passed cs rest trivia : List Char} {c c' : Cursor} {d : Char}

/-- Between two steps, a cursor is `passed` behind the beginning. -/
structure Rests (c : Cursor) (source passed cs : List Char) : Prop where
  source_eq : source = passed ++ cs
  curr_eq : c.curr = byteLength passed

/-- A cursor that rests may start its next lexeme. -/
theorem Rests.stands (h : c.Rests source passed cs) :
    ({ c with start := c.curr, pending := none } : Cursor).Stands source passed [] cs :=
  ⟨h.source_eq, h.curr_eq, h.curr_eq⟩

theorem Stands.rests {front text : List Char} (h : c.Stands source front text cs) :
    c.Rests source (front ++ text) cs :=
  ⟨by rw [h.source_eq, List.append_assoc], by rw [h.curr_eq, byteLength_append]⟩

theorem Rests.isAtEnd_eq (h : c.Rests source passed cs) : c.isAtEnd source = cs.isEmpty :=
  h.stands.isAtEnd_eq

theorem byteLength_pos {text : List Char} (h : text ≠ []) : 0 < byteLength text := by
  cases text with
  | nil => exact absurd rfl h
  | cons d cs => exact Nat.add_pos_left (Char.utf8Size_pos d) _

/-- What leaves nothing is passed on the way to the next item. -/
theorem nextItem?_of_skip {text : List Char} (h : c.Rests source passed (d :: cs))
    (hscan : scanToken? source { c with start := c.curr, pending := none } = some (.ok (), c'))
    (hpending : c'.pending = none) (hstands : c'.Stands source passed text rest)
    (htext : text ≠ []) : c.nextItem? source = c'.nextItem? source := by
  have hfurther : c.curr < c'.curr := by
    rw [h.curr_eq, hstands.curr_eq]
    exact Nat.lt_add_of_pos_right (byteLength_pos htext)
  rw [nextItem?, h.isAtEnd_eq, hscan]
  simp [hpending, hfurther]

/-- Blanks and comments are skipped. -/
theorem exists_nextItem?_skip (h : c.Rests source passed cs) :
    ∃ c' : Cursor, c.nextItem? source = c'.nextItem? source ∧
      c'.Rests source (passed ++ (Lexeme.splitTrivia false cs).1)
        (Lexeme.splitTrivia false cs).2 ∧
      c'.line = c.line + (Lexeme.splitTrivia false cs).1.count '\n' ∧ c'.done = c.done := by
  induction cs using Lexeme.trivia_induction generalizing c passed with
  | nil => exact ⟨c, rfl, by simpa [Lexeme.splitTrivia] using h, rfl, rfl⟩
  | blank d cs hblank ih =>
    obtain ⟨c₁, hscan, hstands, hline₁, hpending, hdone₁⟩ := scanToken?_of_isBlank h.stands hblank
    obtain ⟨c₂, hnext, hrests, hline₂, hdone₂⟩ := ih hstands.rests
    rw [Lexeme.splitTrivia_blank hblank]
    refine ⟨c₂, (nextItem?_of_skip h hscan hpending hstands (by simp)).trans hnext, ?_, ?_,
      hdone₂.trans hdone₁⟩
    · simpa using hrests
    · rw [hline₂, hline₁, Nat.add_assoc, ← List.count_append]
      rfl
  | comment cs ih =>
    obtain ⟨c₁, hscan, hstands, hkeeps⟩ := scanToken?_comment h.stands
    obtain ⟨c₂, hnext, hrests, hline₂, hdone₂⟩ := ih hstands.rests
    have hbody : (cs.takeWhile (· != '\n')).count '\n' = 0 :=
      count_newline_takeWhile (by decide) cs
    rw [Lexeme.splitTrivia_comment]
    refine ⟨c₂, (nextItem?_of_skip h hscan hkeeps.pending hstands (by simp)).trans hnext,
      ?_, ?_, hdone₂.trans hkeeps.done⟩
    · simpa using hrests
    · rw [hline₂, hkeeps.line]
      simp [hbody]
  | lexeme d cs hstarts =>
    rw [hstarts.splitTrivia_eq]
    exact ⟨c, rfl, by simpa using h, rfl, rfl⟩

/-- The item for a lexeme that has been read. -/
theorem nextItem?_of_past {c₁ : Cursor} {front : List Char} {reading : Lexeme.Reading}
    (hend : c.isAtEnd source = false)
    (hscan : scanToken? source { c with start := c.curr, pending := none } =
      some (outcome c.line reading, c₁))
    (hpast : Past source front { c with start := c.curr, pending := none } c₁ reading) :
    ∃ c', c.nextItem? source = some (reading.item ⟨c.line, byteLength front⟩, c') ∧
      c'.Stands source front reading.text reading.ahead ∧
      c'.line = c.line + reading.text.count '\n' ∧ c'.done = c.done := by
  rw [nextItem?, hend, hscan, outcome, Lexeme.Reading.item]
  cases hcontent : reading.content with
  | error problem => exact ⟨c₁, rfl, hpast.stands, hpast.line, hpast.done⟩
  | ok kind =>
    refine ⟨{ c₁ with pending := none }, ?_, ?_, hpast.line, hpast.done⟩
    · have hslice := hpast.stands.slice?_eq
      rw [hpast.stands.start_eq] at hslice
      simp [hpast.pending kind hcontent, hslice, hpast.line, hpast.stands.start_eq, Position.past]
    · exact ⟨hpast.stands.source_eq, hpast.stands.start_eq, hpast.stands.curr_eq⟩

/-- Behind the last lexeme, the end token is yielded. -/
theorem nextItem?_of_splitTrivia_nil (h : c.Rests source passed cs)
    (htrivia : Lexeme.splitTrivia false cs = (trivia, [])) :
    ∃ c', c.nextItem? source =
        some (.ok (.atEnd (c.line + trivia.count '\n') (byteLength source)), c') ∧
      c'.done := by
  obtain ⟨c₁, hnext, hrests, hline, -⟩ := exists_nextItem?_skip h
  rw [htrivia] at hrests hline
  refine ⟨{ c₁ with done := true }, ?_, rfl⟩
  rw [hnext, nextItem?, hrests.isAtEnd_eq, hline]
  rfl

/-- In front of a lexeme, its item is yielded. -/
theorem nextItem?_of_splitTrivia_cons (h : c.Rests source passed cs)
    (htrivia : Lexeme.splitTrivia false cs = (trivia, d :: rest)) :
    ∃ c', c.nextItem? source =
        some ((Lexeme.read d rest).item ⟨c.line + trivia.count '\n', byteLength (passed ++ trivia)⟩,
          c') ∧
      c'.Stands source (passed ++ trivia) (Lexeme.read d rest).text (Lexeme.read d rest).ahead ∧
      c'.line = c.line + trivia.count '\n' + (Lexeme.read d rest).text.count '\n' ∧
      c'.done = c.done := by
  obtain ⟨c₁, hnext, hrests, hline, hdone⟩ := exists_nextItem?_skip h
  rw [htrivia] at hrests hline
  obtain ⟨c₂, hscan, hpast⟩ := scanToken?_of_startsLexeme hrests.stands
    (Lexeme.startsLexeme_of_splitTrivia htrivia)
  obtain ⟨c₃, hitem, hstands, hline₃, hdone₃⟩ := nextItem?_of_past hrests.isAtEnd_eq hscan hpast
  rw [hline] at hitem hline₃
  exact ⟨c₃, hnext.trans hitem, hstands, hline₃, hdone₃.trans hdone⟩

end Items

section Calls

variable {source passed cs : List Char} {c c' c'' : Cursor} {position : Position}
  {segments : List Segment}

/-- After the end there is nothing more. -/
theorem next?_of_done (h : c.done) : c.next? source = some (none, c) := by
  rw [next?, h]
  rfl

/-- Before the end, every call has an item. -/
theorem next?_of_not_done (h : c.done = false) {item : Item}
    (hitem : c.nextItem? source = some (item, c')) : c.next? source = some (some item, c') := by
  rw [next?, h, hitem]
  rfl

/-- Calls are made one after another. -/
theorem calls?_succ {item : Option Item} {items : List (Option Item)} {n : Nat}
    (hnext : c.next? source = some (item, c')) (hrest : calls? source n c' = some (items, c'')) :
    calls? source (n + 1) c = some (item :: items, c'') := by
  simp [calls?, hnext, hrest]

/-- After the end, every further call has nothing. -/
theorem calls?_of_done (h : c.done) (n : Nat) :
    calls? source n c = some (List.replicate n none, c) := by
  induction n with
  | zero => rfl
  | succ n ih => exact calls?_succ (next?_of_done h) ih

/-- A call for each item and one for the end token yield them all, and the calls after them
    nothing. -/
theorem exists_calls?_eq (hcuts : Reader.Cuts position cs segments)
    (hrests : c.Rests source passed cs) (hposition : position = ⟨c.line, byteLength passed⟩)
    (hdone : c.done = false) (n : Nat) :
    ∃ c', calls? source (segments.length + (n + 1)) c =
      some (segments.map (some ·.item) ++
        some (.ok (.atEnd (c.line + cs.count '\n') (byteLength source))) ::
          List.replicate n none, c') := by
  induction hcuts generalizing c passed with
  | @finish position cs trivia htrivia =>
    obtain ⟨c₁, hitem, hdone₁⟩ := nextItem?_of_splitTrivia_nil hrests htrivia
    have hcalls := calls?_succ (next?_of_not_done hdone hitem) (calls?_of_done hdone₁ n)
    rw [Reader.Cuts.append_of_splitTrivia_nil htrivia] at hcalls
    rw [List.length_nil, Nat.zero_add]
    exact ⟨_, hcalls⟩
  | @item position cs trivia rest d segments htrivia hrest ih =>
    subst hposition
    obtain ⟨c₁, hitem, hstands, hline, hdone₁⟩ := nextItem?_of_splitTrivia_cons hrests htrivia
    simp only [Reader.Cuts.past_byteLength] at ih ⊢
    obtain ⟨c', hcalls⟩ := ih hstands.rests (by rw [hline]) (hdone₁.trans hdone)
    rw [hline, Nat.add_assoc, Nat.add_assoc, ← List.count_append, ← List.count_append,
      Reader.Cuts.append_of_splitTrivia_cons htrivia] at hcalls
    rw [List.length_cons, Nat.add_right_comm]
    exact ⟨c', calls?_succ (next?_of_not_done hdone hitem) hcalls⟩

/-- When its item is yielded, the two indices enclose the text of a segment. -/
theorem exists_calls?_segment (hcuts : Reader.Cuts position cs segments)
    (hrests : c.Rests source passed cs) (hposition : position = ⟨c.line, byteLength passed⟩)
    (hdone : c.done = false) {before behind : List Segment} {s : Segment}
    (hsegments : segments = before ++ s :: behind) :
    ∃ ahead c', calls? source (before.length + 1) c =
        some ((before ++ [s]).map (some ·.item), c') ∧
      c'.Stands source (passed ++ before.flatMap Segment.whole ++ s.trivia) s.text ahead := by
  induction hcuts generalizing c passed before with
  | finish => cases before <;> cases hsegments
  | @item position cs trivia rest d segments htrivia hrest ih =>
    subst hposition
    obtain ⟨c₁, hitem, hstands, hline, hdone₁⟩ := nextItem?_of_splitTrivia_cons hrests htrivia
    have hnext := next?_of_not_done hdone hitem
    simp only [Reader.Cuts.past_byteLength] at ih hsegments
    cases before with
    | nil =>
      obtain ⟨rfl, -⟩ := List.cons.inj hsegments
      rw [List.flatMap_nil, List.append_nil]
      exact ⟨_, c₁, calls?_succ hnext rfl, hstands⟩
    | cons s' before =>
      obtain ⟨rfl, htail⟩ := List.cons.inj hsegments
      obtain ⟨ahead, c', hcalls, hstands'⟩ :=
        ih hstands.rests (by rw [hline]) (hdone₁.trans hdone) htail
      refine ⟨ahead, c', calls?_succ hnext hcalls, ?_⟩
      simpa [Segment.whole] using hstands'

end Calls

end Cursor

/-- The tokens of tiled items are no ends. -/
theorem Tiling.endFree {passed cs trailing : List Char} {segments : List Segment}
    (h : Tiling passed cs segments trailing) (last : List Item) :
    ∃ ts, (Tokens.ofItems (segments.map Segment.item ++ last)).tokens =
      ts ++ (Tokens.ofItems last).tokens ∧ EndFree ts := by
  refine ⟨(Tokens.ofItems (segments.map Segment.item)).tokens, List.filterMap_append, ?_⟩
  intro t ht
  obtain ⟨item, hitem, hsome⟩ := List.mem_filterMap.mp ht
  obtain ⟨s, hs, rfl⟩ := List.mem_map.mp hitem
  obtain ⟨before, behind, hsegments⟩ := List.append_of_mem hs
  have hdescribes := (h.fits before s behind hsegments).item
  cases hok : s.item with
  | error => simp [hok] at hsome
  | ok u =>
    rw [hok] at hdescribes hsome
    cases hsome
    exact hdescribes.1

/-- A scan accounts for every byte of the source. The texts of the items stand in it one behind the
    other, with nothing but blanks and comments between them. No call for an item fails. -/
theorem scan_tiles (source : String) :
    ∃ segments trailing last ts,
      readItems source = segments.map Segment.item ++ [.ok last] ∧
      (last.isEnd ∧ last.lexeme = "" ∧ last.offset = byteLength source.toList) ∧
      Tiling [] source.toList segments trailing ∧
      (∀ before s behind, segments = before ++ s :: behind →
        (∃ c, Cursor.calls? source.toList (before.length + 1) .atStart =
            some ((before ++ [s]).map (some ·.item), c) ∧
          c.start = byteLength (before.flatMap Segment.whole ++ s.trivia) ∧
          c.curr = c.start + byteLength s.text ∧
          slice? source.toList c.start c.curr = some s.text) ∧
        ∀ line, s.item = .error ⟨line, .unterminatedString⟩ → behind = []) ∧
      (∀ n, ∃ c, Cursor.calls? source.toList (segments.length + (n + 1)) .atStart =
        some ((readItems source).map some ++ List.replicate n none, c)) ∧
      (Tokens.ofString source).tokens = ts ++ [last] ∧ EndFree ts := by
  obtain ⟨segments, hcuts⟩ := Reader.exists_cuts ⟨1, 0⟩ source.toList
  have hitems : readItems source = segments.map Segment.item ++ _ :=
    hcuts.items_eq (Nat.lt_succ_self _)
  obtain ⟨trailing, htiling⟩ : ∃ trailing, Tiling [] source.toList segments trailing :=
    hcuts.tiling
  have hrests : Cursor.atStart.Rests source.toList [] source.toList := ⟨rfl, rfl⟩
  have hlast : (Position.past ⟨1, 0⟩ source.toList).offset = byteLength source.toList :=
    Nat.zero_add _
  obtain ⟨ts, htokens, hfree⟩ := htiling.endFree
    [.ok (.atEnd (Position.past ⟨1, 0⟩ source.toList).line
      (Position.past ⟨1, 0⟩ source.toList).offset)]
  refine ⟨segments, trailing, _, ts, hitems, ⟨rfl, rfl, hlast⟩, htiling, ?_, ?_, ?_, hfree⟩
  · intro before s behind hsegments
    obtain ⟨ahead, c, hcalls, hstands⟩ :=
      Cursor.exists_calls?_segment hcuts hrests rfl rfl hsegments
    refine ⟨⟨c, hcalls, hstands.start_eq, ?_, hstands.slice?_eq⟩, fun line hunterminated =>
      htiling.eq_nil_of_unterminated hsegments hunterminated⟩
    rw [hstands.curr_eq, hstands.start_eq]
  · intro n
    obtain ⟨c, hcalls⟩ := Cursor.exists_calls?_eq hcuts hrests rfl rfl n
    refine ⟨c, hcalls.trans ?_⟩
    rw [hitems, hlast]
    simp
    rfl
  · rw [Tokens.ofString, hitems, htokens]
    rfl

end Lox

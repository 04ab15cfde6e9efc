import Mathlib.Data.List.TakeWhile
import Lox.Proofs.Token.Ending

/-!
A lexeme looks at what follows it no further than to see whether it goes on. There it tells no
letters apart, and takes a line break for the end. So it is read in the same way before two texts
that are the same up to a place where they differ in no other way.
-/

namespace Lox

namespace Lexeme

/-- A word that is not a keyword. -/
def isIdentifier (text : List Char) : Bool :=
  text.head?.any isLetter && text.all isWordChar && (Keyword.ofSpelling? text).isNone

/-- Texts that are the same to their ends, or up to a place where both have a letter or where one
    ends and the other has a line break. -/
inductive Similar : List Char → List Char → Prop
  | nil : Similar [] []
  | cons {c : Char} {cs ds : List Char} (h : Similar cs ds) : Similar (c :: cs) (c :: ds)
  | letters {c d : Char} {cs ds : List Char} (hc : isLetter c) (hd : isLetter d) :
      Similar (c :: cs) (d :: ds)
  | newline {ds : List Char} : Similar [] ('\n' :: ds)

/-- The test tells no letters apart and stops at a line break. -/
structure Blind (test : Char → Bool) : Prop where
  letters : ∀ {c d}, isLetter c → isLetter d → test c = test d
  newline : test '\n' = false

variable {c : Char} {cs ds text ahead : List Char} {test : Char → Bool}

/-- Texts remain similar behind the same text. -/
theorem Similar.append (h : Similar cs ds) (text : List Char) :
    Similar (text ++ cs) (text ++ ds) := by
  induction text with
  | nil => exact h
  | cons c text ih => exact .cons ih

/-- Where such a test stops at one text it stops at the other. -/
theorem Similar.stops (h : Similar cs ds) (hblind : Blind test)
    (hstops : ∀ c ∈ cs.head?, test c = false) : ∀ d ∈ ds.head?, test d = false := by
  cases h with
  | nil => simp
  | cons h => exact hstops
  | letters hc hd =>
    simp only [List.head?_cons, Option.mem_some_iff, forall_eq'] at hstops ⊢
    rw [← hblind.letters hc hd, hstops]
  | newline =>
    simp only [List.head?_cons, Option.mem_some_iff, forall_eq']
    exact hblind.newline

/-- What passes a test and is followed by what fails it is exactly what is taken. -/
theorem takeWhile_append_of_all (hall : ∀ c ∈ text, test c)
    (hstops : ∀ c ∈ ahead.head?, test c = false) :
    (text ++ ahead).takeWhile test = text ∧ (text ++ ahead).dropWhile test = ahead := by
  rw [List.takeWhile_append_of_pos hall, List.dropWhile_append_of_pos hall]
  cases ahead with
  | nil => simp
  | cons c ahead =>
    simp only [List.head?_cons, Option.mem_some_iff, forall_eq'] at hstops
    simp [hstops]

theorem forall_mem_head?_dropWhile (cs : List Char) :
    ∀ c ∈ (cs.dropWhile test).head?, test c = false := by
  intro c hc
  have hnot := List.head?_dropWhile_not test cs
  rw [Option.mem_def.mp hc] at hnot
  simpa using hnot

/-- What a test takes from a text, it takes when the text goes on otherwise behind. -/
theorem takeWhile_append_of_similar (hblind : Blind test) (h : Similar (cs.dropWhile test) ds) :
    (cs.takeWhile test ++ ds).takeWhile test = cs.takeWhile test ∧
      (cs.takeWhile test ++ ds).dropWhile test = ds :=
  takeWhile_append_of_all (fun _ => List.mem_takeWhile_imp)
    (h.stops hblind (forall_mem_head?_dropWhile cs))

section Letters

/-! Letters are word characters, and nothing else that the reader looks for. -/

theorem isWordChar_of_isLetter (h : isLetter c) : isWordChar c := by
  rw [isWordChar, h, Bool.true_or]

theorem isDigit_of_isLetter (h : isLetter c) : isDigit c = false := by
  rw [Bool.eq_false_iff]
  intro hdigit
  simp only [isLetter, isDigit, Char.le_def, UInt32.le_iff_toNat_le, Bool.or_eq_true,
    Bool.and_eq_true, decide_eq_true_eq, beq_iff_eq, Char.reduceVal, UInt32.reduceToNat] at h hdigit
  rcases h with h | rfl
  · omega
  · simp at hdigit

theorem ne_of_isLetter {d : Char} (h : isLetter c) (hd : isLetter d = false) : c ≠ d := by
  rintro rfl
  rw [h] at hd
  cases hd

theorem isBlank_of_isLetter (h : isLetter c) : isBlank c = false := by
  have hspace : c ≠ ' ' := ne_of_isLetter h (by decide)
  have hreturn : c ≠ '\r' := ne_of_isLetter h (by decide)
  have htab : c ≠ '\t' := ne_of_isLetter h (by decide)
  have hbreak : c ≠ '\n' := ne_of_isLetter h (by decide)
  simp [isBlank, hspace, hreturn, htab, hbreak]

end Letters

section Read

/-! A lexeme is read in the same way before any similar text. -/

/-- The test for characters of words tells no letters apart. -/
theorem blind_isWordChar : Blind isWordChar where
  letters hc hd := by rw [isWordChar_of_isLetter hc, isWordChar_of_isLetter hd]
  newline := by decide

theorem blind_isDigit : Blind isDigit where
  letters hc hd := by rw [isDigit_of_isLetter hc, isDigit_of_isLetter hd]
  newline := by decide

/-- A word is read in the same way before a similar text. -/
theorem readWord_of_similar (h : Similar (readWord cs).ahead ds) :
    readWord ((readWord cs).text ++ ds) = { readWord cs with ahead := ds } := by
  obtain ⟨htake, hdrop⟩ := takeWhile_append_of_similar blind_isWordChar h
  unfold readWord
  dsimp only
  rw [htake, hdrop]

/-- The point of a number and the digits behind it, if there are any. -/
def fractionText (fraction : List Char) : List Char :=
  if fraction.isEmpty then [] else '.' :: fraction

theorem splitFraction_of_ne (h : c ≠ '.') : splitFraction (c :: cs) = ([], c :: cs) := by
  rw [splitFraction]
  intro d rest heq
  exact h (List.cons.inj heq).1

/-- A fraction is split off in the same way before a similar text. -/
theorem splitFraction_of_similar (h : Similar (splitFraction cs).2 ds) :
    splitFraction (fractionText (splitFraction cs).1 ++ ds) = ((splitFraction cs).1, ds) := by
  fun_cases splitFraction cs with
  | case1 d cs hdigit =>
    rw [splitFraction, if_pos hdigit] at h
    obtain ⟨htake, hdrop⟩ := takeWhile_append_of_similar blind_isDigit h
    rw [List.takeWhile_cons_of_pos hdigit, List.cons_append] at htake hdrop
    rw [List.takeWhile_cons_of_pos hdigit, fractionText, List.isEmpty_cons, if_neg (by simp),
      List.cons_append, List.cons_append, splitFraction, if_pos hdigit, htake, hdrop]
  | case2 d cs hdigit =>
    rw [splitFraction, if_neg hdigit] at h
    change splitFraction ds = ([], ds)
    cases h with
    | letters hpoint => exact absurd hpoint (by decide)
    | cons h =>
      cases h with
      | cons h => rw [splitFraction, if_neg hdigit]
      | letters _ hletter =>
        rw [splitFraction, isDigit_of_isLetter hletter]
        rfl
  | case3 cs hpoint =>
    have hsplit : splitFraction cs = ([], cs) := by
      rw [splitFraction]
      exact hpoint
    rw [hsplit] at h
    change splitFraction ds = ([], ds)
    cases h with
    | nil => rfl
    | letters _ hletter => exact splitFraction_of_ne (ne_of_isLetter hletter (by decide))
    | newline => exact splitFraction_of_ne (by decide)
    | @cons c _ _ h =>
      by_cases hc : c = '.'
      · subst hc
        cases h with
        | nil => rfl
        | newline => rfl
        | cons => exact absurd rfl (hpoint _ _)
        | letters => exact absurd rfl (hpoint _ _)
      · exact splitFraction_of_ne hc

/-- The text of a number is its digits and its fraction. -/
theorem readNumber_text (cs : List Char) :
    (readNumber cs).text =
      cs.takeWhile isDigit ++ fractionText (splitFraction (cs.dropWhile isDigit)).1 := by
  unfold readNumber fractionText
  dsimp only
  split
  · rw [List.append_nil]
  · rfl

theorem isDigit_of_mem_splitFraction {d : Char} (hd : d ∈ (splitFraction cs).1) : isDigit d := by
  unfold splitFraction at hd
  split at hd
  · split at hd
    · exact List.mem_takeWhile_imp hd
    · cases hd
  · cases hd

theorem mem_fractionText {d : Char} {fraction : List Char} (h : d ∈ fractionText fraction) :
    d = '.' ∨ d ∈ fraction := by
  unfold fractionText at h
  split at h
  · cases h
  · exact List.mem_cons.mp h

/-- Digits and a fraction alone are read as the number that they stand for. -/
theorem readNumber_digits {whole fraction : List Char} (hwhole : ∀ d ∈ whole, isDigit d)
    (hfraction : ∀ d ∈ fraction, isDigit d) :
    readNumber (whole ++ fractionText fraction) =
      ⟨.ok (.number (valueOf whole fraction)), whole ++ fractionText fraction, []⟩ := by
  have hpoint : isDigit '.' = false := by decide
  have hall := List.takeWhile_eq_self_iff.mpr hfraction
  rw [readNumber, List.takeWhile_append_of_pos hwhole, List.dropWhile_append_of_pos hwhole]
  cases fraction with
  | nil => simp [fractionText, splitFraction]
  | cons e fraction =>
    have he := hfraction e List.mem_cons_self
    have hrest := List.dropWhile_eq_nil_iff.mpr hfraction
    simp [fractionText, hpoint, splitFraction, he, hall, hrest]

/-- A number is read in the same way before a similar text. -/
theorem readNumber_of_similar (h : Similar (readNumber cs).ahead ds) :
    readNumber ((readNumber cs).text ++ ds) = { readNumber cs with ahead := ds } := by
  have hrest : fractionText (splitFraction (cs.dropWhile isDigit)).1 ++ (readNumber cs).ahead =
      cs.dropWhile isDigit := splitFraction_append (cs.dropWhile isDigit)
  have hsimilar := h.append (fractionText (splitFraction (cs.dropWhile isDigit)).1)
  rw [hrest] at hsimilar
  obtain ⟨htake, hdrop⟩ := takeWhile_append_of_similar blind_isDigit hsimilar
  rw [readNumber_text, List.append_assoc]
  unfold readNumber at h ⊢
  rw [htake, hdrop, splitFraction_of_similar h]

/-- A string that ends does not depend on what follows it. -/
theorem readString_of_ends (hends : (readString cs).content ≠ .error .unterminatedString)
    (ds : List Char) :
    readString ((readString cs).text.tail ++ ds) = { readString cs with ahead := ds } := by
  unfold readString at hends ⊢
  cases hrest : cs.dropWhile (· != '"') with
  | nil =>
    rw [hrest] at hends
    exact absurd rfl hends
  | cons quote ahead =>
    have hquote := @forall_mem_head?_dropWhile (· != '"') cs
    rw [hrest] at hquote
    obtain ⟨htake, hdrop⟩ := @takeWhile_append_of_all (cs.takeWhile (· != '"')) (quote :: ds)
      (· != '"') (fun _ => List.mem_takeWhile_imp) hquote
    dsimp only
    rw [List.cons_append, List.tail_cons, List.append_assoc, List.singleton_append, htake, hdrop]
    rfl

/-- Only an equals sign makes punctuation longer. -/
theorem ofSpelling?_of_ne {d : Char} (h : d ≠ '=') (c : Char) :
    Punct.ofSpelling? [c, d] = none := by
  rw [Punct.ofSpelling?, List.find?_eq_none]
  intro p _
  cases p <;> simp [Punct.spelling, h.symm]

/-- Two characters that spell punctuation are taken together. -/
theorem readPunct_of_some {p : Punct} (h : Punct.ofSpelling? (c :: cs.take 1) = some p) :
    readPunct c cs = ⟨.ok (.punct p), c :: cs.take 1, cs.drop 1⟩ := by
  rw [readPunct, h]

/-- Otherwise one character is taken. -/
theorem readPunct_of_none (h : Punct.ofSpelling? (c :: cs.take 1) = none) :
    readPunct c cs = ⟨(readPunct c []).content, [c], cs⟩ := by
  unfold readPunct
  rw [h, List.take_nil]
  cases Punct.ofSpelling? [c] <;> rfl

/-- No second character of a punctuation is a letter or a line break. -/
theorem ofSpelling?_of_similar (h : Similar cs ds)
    (hnone : Punct.ofSpelling? (c :: cs.take 1) = none) :
    Punct.ofSpelling? (c :: ds.take 1) = none := by
  cases h with
  | nil | cons => exact hnone
  | letters _ hletter => exact ofSpelling?_of_ne (ne_of_isLetter hletter (by decide)) c
  | newline => exact ofSpelling?_of_ne (by decide) c

/-- Punctuation is read in the same way before a similar text. -/
theorem readPunct_of_similar (h : Similar (readPunct c cs).ahead ds) :
    readPunct c ((readPunct c cs).text.tail ++ ds) = { readPunct c cs with ahead := ds } := by
  cases htwo : Punct.ofSpelling? (c :: cs.take 1) with
  | some p =>
    rw [readPunct_of_some htwo] at h ⊢
    cases cs with
    | cons d cs => exact @readPunct_of_some c (d :: ds) p htwo
    | nil =>
      cases h with
      | nil => exact readPunct_of_some htwo
      | newline =>
        refine (readPunct_of_none (ofSpelling?_of_ne (by decide) c)).trans ?_
        rw [readPunct_of_some htwo]
        rfl
  | none =>
    rw [readPunct_of_none htwo] at h ⊢
    exact readPunct_of_none (ofSpelling?_of_similar h htwo)

theorem read_text_eq (c : Char) (cs : List Char) :
    (read c cs).text = c :: (read c cs).text.tail := by
  have happend := read_append c cs
  cases htext : (read c cs).text with
  | nil => exact absurd htext (read_text_ne_nil c cs)
  | cons d text =>
    rw [htext, List.cons_append] at happend
    obtain ⟨rfl, -⟩ := List.cons.inj happend
    rfl

/-- The reading of a lexeme stays the same before any similar text. -/
theorem read_of_similar {kind : Kind} (hok : (read c cs).content = .ok kind)
    (h : Similar (read c cs).ahead ds) :
    read c ((read c cs).text.tail ++ ds) = { read c cs with ahead := ds } := by
  have htext := read_text_eq c cs
  unfold read at hok h htext ⊢
  split
  · rename_i hquote
    rw [if_pos hquote] at hok
    exact readString_of_ends (by simp [hok]) ds
  · rename_i hquote
    rw [if_neg hquote] at h htext
    split
    · rename_i hdigit
      rw [if_pos hdigit] at h htext
      rw [← List.cons_append, ← htext]
      exact readNumber_of_similar h
    · rename_i hdigit
      rw [if_neg hdigit] at h htext
      split
      · rename_i hletter
        rw [if_pos hletter] at h htext
        rw [← List.cons_append, ← htext]
        exact readWord_of_similar h
      · rename_i hletter
        rw [if_neg hletter] at h
        exact readPunct_of_similar h

/-- Only words are identifiers. -/
theorem read_of_identifier (h : (read c cs).content = .ok .identifier) :
    isLetter c ∧ read c cs = readWord (c :: cs) := by
  unfold read at h ⊢
  split
  · rename_i hquote
    rw [if_pos hquote] at h
    unfold readString at h
    dsimp only at h
    split at h <;> cases h
  · rename_i hquote
    rw [if_neg hquote] at h
    split
    · rename_i hdigit
      rw [if_pos hdigit] at h
      cases h
    · rename_i hdigit
      rw [if_neg hdigit] at h
      split
      · exact ⟨‹isLetter c›, rfl⟩
      · rename_i hletter
        rw [if_neg hletter] at h
        unfold readPunct at h
        split at h <;> cases h

/-- An identifier begins with a letter, goes on with characters of words and is no keyword. -/
theorem isIdentifier_cons : isIdentifier (c :: text) ↔ isLetter c ∧
    (∀ d ∈ c :: text, isWordChar d) ∧ Keyword.ofSpelling? (c :: text) = none := by
  rw [isIdentifier, Bool.and_eq_true, Bool.and_eq_true, List.head?_cons, Option.any_some,
    List.all_eq_true, Option.isNone_iff_eq_none, and_assoc]

/-- A word that is not a keyword is read as an identifier. -/
theorem read_content_of_isIdentifier (h : isIdentifier (read c cs).text) :
    (read c cs).content = .ok .identifier := by
  rw [read_text_eq] at h
  obtain ⟨hletter, -, hkeyword⟩ := isIdentifier_cons.mp h
  rw [← read_text_eq] at hkeyword
  have hquote : c ≠ '"' := ne_of_isLetter hletter (by decide)
  unfold read at hkeyword ⊢
  rw [if_neg hquote, isDigit_of_isLetter hletter, if_neg Bool.false_ne_true, if_pos hletter]
    at hkeyword ⊢
  unfold readWord at hkeyword ⊢
  dsimp only at hkeyword ⊢
  rw [hkeyword]

/-- An identifier is read where no more of a word follows. -/
theorem read_identifier (h : isIdentifier (c :: text))
    (hstops : ∀ d ∈ ahead.head?, isWordChar d = false) :
    read c (text ++ ahead) = ⟨.ok .identifier, c :: text, ahead⟩ := by
  obtain ⟨hletter, hall, hkeyword⟩ := isIdentifier_cons.mp h
  obtain ⟨htake, hdrop⟩ := takeWhile_append_of_all hall hstops
  have hquote : c ≠ '"' := ne_of_isLetter hletter (by decide)
  rw [read, if_neg hquote, isDigit_of_isLetter hletter, if_neg Bool.false_ne_true, if_pos hletter,
    readWord, ← List.cons_append, htake, hdrop, hkeyword]

end Read

/-- Blanks and comments end before any text that is similar to what ended them. -/
theorem splitTrivia_of_similar {inComment : Bool} {trivia : List Char}
    (hsplit : splitTrivia inComment cs = (trivia, c :: ahead)) (h : Similar (c :: ahead) ds) :
    splitTrivia inComment (trivia ++ ds) = (trivia, ds) := by
  fun_induction splitTrivia inComment cs generalizing trivia with
  | case1 cs skipped ahead' hrest ih =>
    cases hsplit
    rw [List.cons_append, List.cons_append, splitTrivia, ih hrest]
  | case2 inComment c cs hcomment hskip skipped ahead' hrest ih =>
    cases hsplit
    rw [List.cons_append, splitTrivia, if_pos hskip, ih hrest]
    rintro rest rfl rfl
    exact absurd hskip (by decide)
  | case3 inComment c cs hcomment hstop =>
    cases hsplit
    rw [List.nil_append]
    cases h with
    | cons h =>
      rw [splitTrivia, if_neg hstop]
      rintro rest rfl rfl rfl
      cases h with
      | cons => exact hcomment _ rfl rfl rfl
      | letters _ hletter => exact absurd hletter (by decide)
    | letters hc hd =>
      have hbreak : c ≠ '\n' := ne_of_isLetter hc (by decide)
      have hoff : inComment = false := by simpa [hbreak, isBlank_of_isLetter hc] using hstop
      rw [splitTrivia, hoff, isBlank_of_isLetter hd]
      · rfl
      · rintro rest - rfl
        exact absurd hd (by decide)
  | case4 => cases hsplit

end Lexeme

end Lox

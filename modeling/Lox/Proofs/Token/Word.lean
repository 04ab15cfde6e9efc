import Lox.Proofs.Token.Tiling

/-!
The words of Lox, told without the reader, and the longest word that a text starts with. What is
read at the front of a text is that word. Where there is none, a string is not terminated or a
character is unexpected.
-/

namespace Lox

open Lexeme

/-- The words of the lexical grammar, with the kind of token that each of them is. Blanks and
    comments are words, too, but no tokens. -/
inductive Word : Option Kind → List Char → Prop
  | punct (p : Punct) : Word (some (.punct p)) p.spelling
  | string {contents : List Char} (hcontents : '"' ∉ contents) :
      Word (some (.string (String.ofList contents))) ('"' :: (contents ++ ['"']))
  | number {c : Char} {cs fraction : List Char} (hc : isDigit c) (hcs : ∀ d ∈ cs, isDigit d)
      (hfraction : ∀ d ∈ fraction, isDigit d) :
      Word (some (.number (valueOf (c :: cs) fraction))) (c :: (cs ++ fractionText fraction))
  | keyword (k : Keyword) : Word (some (.keyword k)) k.spelling
  | identifier {c : Char} {cs : List Char} (hc : isLetter c) (hcs : ∀ d ∈ cs, isWordChar d)
      (hother : ∀ k : Keyword, k.spelling ≠ c :: cs) : Word (some .identifier) (c :: cs)
  | comment {body : List Char} (hbody : '\n' ∉ body) : Word none ('/' :: '/' :: body)
  | blank {c : Char} (hc : isBlank c) : Word none [c]

/-- The text is a word in front of this one, and no longer word is. -/
structure Longest (kind? : Option Kind) (text ahead : List Char) : Prop where
  word : Word kind? text
  isPrefix : text <+: ahead
  longest : ∀ kind?' text', Word kind?' text' → text' <+: ahead → text'.length ≤ text.length

/-- What one step over a source takes of it, and what is made of this: a token, nothing for a blank
    or a comment, or an error. -/
structure Stretch where
  text : List Char
  content : Except LexicalProblem (Option Kind)

/-- The first stretch of a text. -/
def Stretch.first (c : Char) (cs : List Char) : Stretch :=
  if isBlank c then ⟨[c], .ok none⟩
  else if c = '/' ∧ cs.head? = some '/' then ⟨c :: cs.takeWhile (· != '\n'), .ok none⟩
  else ⟨(read c cs).text, (read c cs).content.map some⟩

namespace Lexeme

variable {c : Char} {cs contents : List Char}

/-! What is read at the front of a text, by the class of its first character. -/

/-- A closed string is read up to its closing quote. -/
theorem read_string (hcontents : '"' ∉ contents) (rest : List Char) :
    read '"' (contents ++ '"' :: rest) =
      ⟨.ok (.string (String.ofList contents)), '"' :: (contents ++ ['"']), rest⟩ := by
  have hall : ∀ d ∈ contents, (d != '"') = true := fun d hd =>
    bne_iff_ne.mpr (ne_of_mem_of_not_mem hd hcontents)
  obtain ⟨htake, hdrop⟩ := @takeWhile_append_of_all contents ('"' :: rest) _ hall (by simp)
  rw [read, if_pos rfl, readString, hdrop, htake]
  rfl

theorem read_digit (hc : isDigit c) (cs : List Char) : read c cs = readNumber (c :: cs) := by
  have hquote : c ≠ '"' := by
    rintro rfl
    exact absurd hc (by decide)
  rw [read, if_neg hquote, if_pos hc]

theorem read_letter (hc : isLetter c) (cs : List Char) : read c cs = readWord (c :: cs) := by
  rw [read, if_neg (ne_of_isLetter hc (by decide)), isDigit_of_isLetter hc,
    if_neg Bool.false_ne_true, if_pos hc]

/-- A string without a closing quote takes the rest of the text. -/
theorem read_unterminated (hcs : '"' ∉ cs) :
    read '"' cs = ⟨.error .unterminatedString, '"' :: cs, []⟩ := by
  have hall : ∀ d ∈ cs, (d != '"') = true := fun d hd =>
    bne_iff_ne.mpr (ne_of_mem_of_not_mem hd hcs)
  have htake := List.takeWhile_eq_self_iff.mpr hall
  have hdrop := List.dropWhile_eq_nil_iff.mpr hall
  rw [read, if_pos rfl, readString, hdrop, htake]

theorem read_punct {p : Punct} (hc : p.spelling.head? = some c) (cs : List Char) :
    read c cs = readPunct c cs := by
  cases p <;> cases hc <;> rfl

theorem isBlank_cases (h : isBlank c) : c = ' ' ∨ c = '\r' ∨ c = '\t' ∨ c = '\n' := by
  simpa [isBlank, or_assoc] using h

theorem isWordChar_of_isBlank (h : isBlank c) : isWordChar c = false := by
  rcases isBlank_cases h with rfl | rfl | rfl | rfl <;> decide

theorem isDigit_of_isBlank (h : isBlank c) : isDigit c = false := by
  rcases isBlank_cases h with rfl | rfl | rfl | rfl <;> decide

end Lexeme

namespace Keyword

/-- A keyword is a letter and characters of words. -/
theorem exists_spelling_eq (k : Keyword) :
    ∃ c cs, k.spelling = c :: cs ∧ isLetter c ∧ ∀ d ∈ cs, isWordChar d := by
  cases k <;> exact ⟨_, _, rfl, rfl, List.all_eq_true.mp rfl⟩

theorem isWordChar_of_mem_spelling {k : Keyword} {d : Char} (h : d ∈ k.spelling) :
    isWordChar d := by
  obtain ⟨c, cs, hspelling, hc, hcs⟩ := k.exists_spelling_eq
  rw [hspelling] at h
  rcases List.mem_cons.mp h with rfl | h
  · exact isWordChar_of_isLetter hc
  · exact hcs d h

/-- A keyword is found by its own spelling. -/
theorem spelling_of_ofSpelling? {k : Keyword} {text : List Char} (h : ofSpelling? text = some k) :
    k.spelling = text := by
  have hfound := List.find?_some h
  exact of_decide_eq_true hfound

theorem mem_all (k : Keyword) : k ∈ all := by
  cases k <;> decide

theorem spelling_ne_of_ofSpelling? {text : List Char} (h : ofSpelling? text = none)
    (k : Keyword) : k.spelling ≠ text :=
  of_decide_eq_false (Bool.not_eq_true _ ▸ List.find?_eq_none.mp h k k.mem_all)

end Keyword

namespace Punct

theorem isBlank_of_mem_spelling {p : Punct} {d : Char} (h : d ∈ p.spelling) :
    isBlank d = false := by
  have hall : (p.spelling.all fun d => !isBlank d) = true := by cases p <;> rfl
  simpa using List.all_eq_true.mp hall d h

theorem spelling_of_ofSpelling? {p : Punct} {text : List Char} (h : ofSpelling? text = some p) :
    p.spelling = text := by
  have hfound := List.find?_some h
  exact of_decide_eq_true hfound

/-- Each spelling finds its own punctuation. -/
theorem ofSpelling?_spelling (p : Punct) : ofSpelling? p.spelling = some p := by
  cases p <;> rfl

/-- Punctuation is one or two characters long. -/
theorem spelling_cases (p : Punct) :
    (∃ c, p.spelling = [c]) ∨ ∃ c d, p.spelling = [c, d] := by
  cases p <;> first | exact .inl ⟨_, rfl⟩ | exact .inr ⟨_, _, rfl⟩

end Punct

namespace Word

variable {kind? : Option Kind} {d : Char} {cs text : List Char}

theorem ne_nil (h : Word kind? text) : text ≠ [] := by
  cases h with
  | punct p => cases p <;> simp [Punct.spelling]
  | keyword k =>
    obtain ⟨c, cs, hspelling, -⟩ := k.exists_spelling_eq
    simp [hspelling]
  | string | number | identifier | comment | blank => simp

/-- Blanks stand alone, in strings and in comments. -/
theorem of_mem_isBlank (h : Word kind? text) (hd : d ∈ text) (hblank : isBlank d) :
    text = [d] ∨ text.head? = some '"' ∨
      ∃ body, text = '/' :: '/' :: body ∧ '\n' ∉ body := by
  have hword : ∀ e, isWordChar e → e ≠ d := by
    rintro e he rfl
    rw [isWordChar_of_isBlank hblank] at he
    cases he
  have hdigit : ∀ e, isDigit e → e ≠ d := fun e he =>
    hword e (by rw [isWordChar, he, Bool.or_true])
  cases h with
  | punct p => exact absurd hblank (by rw [Punct.isBlank_of_mem_spelling hd]; decide)
  | string => exact .inr (.inl rfl)
  | number hc hcs hfraction =>
    rcases List.mem_cons.mp hd with rfl | hd
    · exact absurd rfl (hdigit d hc)
    rcases List.mem_append.mp hd with hd | hd
    · exact absurd rfl (hdigit d (hcs d hd))
    rcases mem_fractionText hd with rfl | hd
    · exact absurd hblank (by decide)
    · exact absurd rfl (hdigit d (hfraction d hd))
  | keyword k => exact absurd rfl (hword d (Keyword.isWordChar_of_mem_spelling hd))
  | identifier hc hcs =>
    rcases List.mem_cons.mp hd with rfl | hd
    · exact absurd rfl (hword d (isWordChar_of_isLetter hc))
    · exact absurd rfl (hword d (hcs d hd))
  | comment hbody => exact .inr (.inr ⟨_, rfl, hbody⟩)
  | blank => exact .inl (by rw [List.mem_singleton.mp hd])

/-- A word that starts with a quote is a string. -/
theorem of_quote (h : Word kind? ('"' :: cs)) :
    ∃ contents, '"' ∉ contents ∧ cs = contents ++ ['"'] := by
  generalize htext : '"' :: cs = text at h
  cases h with
  | punct p => cases p <;> simp [Punct.spelling] at htext
  | string hcontents => exact ⟨_, hcontents, (List.cons.inj htext).2⟩
  | keyword k =>
    obtain ⟨c, cs, hspelling, hc, -⟩ := k.exists_spelling_eq
    obtain ⟨rfl, -⟩ := List.cons.inj (htext.trans hspelling)
    exact absurd hc (by decide)
  | number hc | identifier hc | blank hc =>
    obtain ⟨rfl, -⟩ := List.cons.inj htext
    exact absurd hc (by decide)
  | comment => simp at htext

/-- A word that starts with a slash is the slash or a comment. -/
theorem of_slash (h : Word kind? ('/' :: cs)) :
    cs = [] ∨ kind? = none ∧ ∃ body, '\n' ∉ body ∧ cs = '/' :: body := by
  generalize htext : '/' :: cs = text at h
  cases h with
  | punct p => cases p <;> simp_all [Punct.spelling]
  | string => simp at htext
  | keyword k =>
    obtain ⟨c, cs, hspelling, hc, -⟩ := k.exists_spelling_eq
    obtain ⟨rfl, -⟩ := List.cons.inj (htext.trans hspelling)
    exact absurd hc (by decide)
  | number hc | identifier hc =>
    obtain ⟨rfl, -⟩ := List.cons.inj htext
    exact absurd hc (by decide)
  | comment hbody => exact .inr ⟨rfl, _, hbody, (List.cons.inj htext).2⟩
  | blank => exact .inl (List.cons.inj htext).2

/-- In front of another character than its last quote, a string is not closed. -/
theorem not_mem_of_open {front contents : List Char} (hcontents : '"' ∉ contents)
    (hbegins : front ++ [d] <+: contents ++ ['"']) (hd : d ≠ '"') : '"' ∉ front := by
  intro hquote
  rcases List.prefix_concat_iff.mp hbegins with heq | hbegins
  · exact hd (List.append_singleton_inj.mp heq).2
  · exact hcontents (hbegins.subset (List.mem_append_left [d] hquote))

/-- A word goes on behind a blank in two cases only: what is in front of the blank is the beginning
    of a string, or that of a comment, which no line break is in. -/
theorem across_blank {front : List Char} (h : Word kind? text) (hbegins : text <+: front ++ d :: cs)
    (hblank : isBlank d) (hfront : front ≠ []) :
    text <+: front ∨ (∃ contents, front = '"' :: contents ∧ '"' ∉ contents) ∨
      d ≠ '\n' ∧ ∃ body, front = '/' :: '/' :: body := by
  by_cases hshort : text <+: front
  · exact .inl hshort
  -- The word goes on to the blank, so it is a string or a comment, which is open there.
  have hlong : front ++ [d] <+: text := by
    have hfrontBlank : front ++ [d] <+: front ++ d :: cs := ⟨cs, by simp⟩
    rcases List.prefix_or_prefix_of_prefix hbegins hfrontBlank with hbegins | hbegins
    · exact (List.prefix_concat_iff.mp hbegins).resolve_right hshort ▸ List.prefix_refl _
    · exact hbegins
  obtain ⟨e, front, rfl⟩ := List.exists_cons_of_ne_nil hfront
  obtain ⟨rest, rfl⟩ := hlong
  rcases h.of_mem_isBlank (by simp) hblank with heq | hhead | ⟨body, heq, hbody⟩
  · simp at heq
  · cases hhead
    obtain ⟨contents, hcontents, heq⟩ := h.of_quote
    have hquote : d ≠ '"' := by
      rintro rfl
      exact absurd hblank (by decide)
    exact .inr (.inl ⟨front, rfl, not_mem_of_open hcontents ⟨rest, heq⟩ hquote⟩)
  · obtain ⟨rfl, htail⟩ := List.cons.inj heq
    refine .inr (.inr ⟨?_, ?_⟩)
    · rintro rfl
      have hmem : '\n' ∈ '/' :: body := by
        rw [← htail]
        simp
      simp [hbody] at hmem
    · cases front with
      | nil =>
        cases htail
        exact absurd hblank (by decide)
      | cons e front =>
        obtain ⟨rfl, -⟩ := List.cons.inj htail
        exact ⟨front, rfl⟩

end Word

namespace Lexeme

variable {c : Char} {cs : List Char}

/-- A token takes a word. -/
theorem word_readNumber (hc : isDigit c) (cs : List Char) {kind : Kind}
    (h : (readNumber (c :: cs)).content = .ok kind) :
    Word (some kind) (readNumber (c :: cs)).text := by
  cases h
  rw [readNumber_text, List.takeWhile_cons_of_pos hc]
  exact .number hc (fun _ => List.mem_takeWhile_imp) fun _ => isDigit_of_mem_splitFraction

/-- What is read from a letter on is a word, if it is a token. -/
theorem word_readWord (hc : isLetter c) (cs : List Char) {kind : Kind}
    (h : (readWord (c :: cs)).content = .ok kind) : Word (some kind) (readWord (c :: cs)).text := by
  unfold readWord at h ⊢
  dsimp only at h ⊢
  cases hkeyword : Keyword.ofSpelling? ((c :: cs).takeWhile isWordChar) with
  | some k =>
    rw [hkeyword] at h
    cases h
    rw [← Keyword.spelling_of_ofSpelling? hkeyword]
    exact .keyword k
  | none =>
    rw [hkeyword] at h
    cases h
    have hother := Keyword.spelling_ne_of_ofSpelling? hkeyword
    rw [List.takeWhile_cons_of_pos (isWordChar_of_isLetter hc)] at hother ⊢
    exact .identifier hc (fun _ => List.mem_takeWhile_imp) hother

/-- What is read is a word, a string that is not terminated or a single character. -/
theorem read_cases (c : Char) (cs : List Char) :
    (∃ kind, (read c cs).content = .ok kind ∧ Word (some kind) (read c cs).text) ∨
      (c = '"' ∧ '"' ∉ cs ∧ read c cs = ⟨.error .unterminatedString, c :: cs, []⟩) ∨
      (c ≠ '"' ∧ read c cs = ⟨.error (.unexpectedCharacter c), [c], cs⟩) := by
  by_cases hquote : c = '"'
  · subst hquote
    by_cases hcs : '"' ∈ cs
    · obtain ⟨contents, rest, rfl, hcontents⟩ := List.eq_append_cons_of_mem hcs
      rw [read_string hcontents]
      exact .inl ⟨_, rfl, .string hcontents⟩
    · exact .inr (.inl ⟨rfl, hcs, read_unterminated hcs⟩)
  by_cases hdigit : isDigit c
  · rw [read_digit hdigit]
    exact .inl ⟨_, rfl, word_readNumber hdigit cs rfl⟩
  by_cases hletter : isLetter c
  · rw [read_letter hletter]
    exact .inl ⟨_, rfl, word_readWord hletter cs rfl⟩
  rw [read, if_neg hquote, if_neg hdigit, if_neg hletter]
  cases htwo : Punct.ofSpelling? (c :: cs.take 1) with
  | some p =>
    rw [readPunct_of_some htwo, ← Punct.spelling_of_ofSpelling? htwo]
    exact .inl ⟨_, rfl, .punct p⟩
  | none =>
    rw [readPunct, htwo]
    cases hone : Punct.ofSpelling? [c] with
    | some p =>
      dsimp only
      rw [← Punct.spelling_of_ofSpelling? hone]
      exact .inl ⟨_, rfl, .punct p⟩
    | none => exact .inr (.inr ⟨hquote, rfl⟩)

end Lexeme

/-! Conversely, no word in front of a text is longer than what is read there. -/

section Longest

variable {kind? kind?' : Option Kind} {kind : Kind} {c : Char}
  {cs text text' ahead rest fraction : List Char} {test : Char → Bool}

theorem length_le_takeWhile (hall : ∀ d ∈ text, test d) (rest : List Char) :
    text.length ≤ ((text ++ rest).takeWhile test).length := by
  rw [List.takeWhile_append_of_pos hall, List.length_append]
  exact Nat.le_add_right _ _

/-- Punctuation that a text starts with is read, or a longer one is. -/
theorem length_le_readPunct {p : Punct} (happend : c :: cs = p.spelling ++ rest) :
    (∃ kind, (readPunct c cs).content = .ok kind) ∧
      p.spelling.length ≤ (readPunct c cs).text.length := by
  have hp := p.ofSpelling?_spelling
  obtain ⟨d, hspelling⟩ | ⟨d, e, hspelling⟩ := p.spelling_cases
  · rw [hspelling] at happend hp ⊢
    obtain ⟨rfl, rfl⟩ := List.cons.inj happend
    unfold readPunct
    rw [hp]
    cases Punct.ofSpelling? (c :: cs.take 1) <;> exact ⟨⟨_, rfl⟩, by simp⟩
  · rw [hspelling] at happend hp ⊢
    obtain ⟨rfl, rfl⟩ := List.cons.inj happend
    rw [readPunct_of_some hp]
    exact ⟨⟨_, rfl⟩, Nat.le_refl _⟩

theorem length_fractionText_le (h : fraction.length ≤ rest.length) :
    (fractionText fraction).length ≤ (fractionText rest).length := by
  cases fraction with
  | nil => exact Nat.zero_le _
  | cons d fraction =>
    cases rest with
    | nil => simp at h
    | cons e rest => exact Nat.succ_le_succ h

/-- Digits and a fraction that a text starts with are read, or more is. -/
theorem length_le_readNumber (hcs : ∀ d ∈ cs, isDigit d)
    (hfraction : ∀ d ∈ fraction, isDigit d) (rest : List Char) :
    (cs ++ fractionText fraction).length ≤
      (readNumber (cs ++ fractionText fraction ++ rest)).text.length := by
  have hpoint : isDigit '.' = false := by decide
  rw [readNumber_text, List.append_assoc, List.length_append, List.length_append]
  cases fraction with
  | nil => exact Nat.add_le_add (length_le_takeWhile hcs _) (Nat.zero_le _)
  | cons e fraction =>
    obtain ⟨htake, hdrop⟩ := @takeWhile_append_of_all cs
      (fractionText (e :: fraction) ++ rest) isDigit hcs (by simp [fractionText, hpoint])
    rw [htake, hdrop]
    refine Nat.add_le_add_left (length_fractionText_le ?_) _
    have hsplit : (splitFraction (fractionText (e :: fraction) ++ rest)).1 =
        (e :: fraction ++ rest).takeWhile isDigit := by
      simp [fractionText, splitFraction, hfraction e List.mem_cons_self]
    rw [hsplit]
    exact length_le_takeWhile hfraction rest

/-- No word that a text starts with is longer than what is read. -/
theorem Word.length_le_read (h : Word (some kind) text) (happend : c :: cs = text ++ rest) :
    (∃ kind, (read c cs).content = .ok kind) ∧ text.length ≤ (read c cs).text.length := by
  cases h with
  | punct p =>
    have hhead : p.spelling.head? = some c := by
      obtain ⟨d, hspelling⟩ | ⟨d, e, hspelling⟩ := p.spelling_cases <;>
        rw [hspelling] at happend ⊢ <;> rw [(List.cons.inj happend).1] <;> rfl
    rw [read_punct hhead]
    exact length_le_readPunct happend
  | string hcontents =>
    obtain ⟨rfl, rfl⟩ := List.cons.inj happend
    rw [List.append_eq, List.append_assoc, List.singleton_append, read_string hcontents]
    exact ⟨⟨_, rfl⟩, Nat.le_refl _⟩
  | @number d ds fraction hc hcs hfraction =>
    obtain ⟨rfl, rfl⟩ := List.cons.inj happend
    rw [read_digit hc]
    exact ⟨⟨_, rfl⟩, length_le_readNumber (List.forall_mem_cons.mpr ⟨hc, hcs⟩) hfraction rest⟩
  | keyword k =>
    obtain ⟨d, ds, hspelling, hd, hds⟩ := k.exists_spelling_eq
    rw [hspelling] at happend ⊢
    obtain ⟨rfl, rfl⟩ := List.cons.inj happend
    rw [read_letter hd]
    exact ⟨⟨_, rfl⟩, length_le_takeWhile
      (List.forall_mem_cons.mpr ⟨isWordChar_of_isLetter hd, hds⟩) rest⟩
  | identifier hd hds =>
    obtain ⟨rfl, rfl⟩ := List.cons.inj happend
    rw [read_letter hd]
    exact ⟨⟨_, rfl⟩, length_le_takeWhile
      (List.forall_mem_cons.mpr ⟨isWordChar_of_isLetter hd, hds⟩) rest⟩

/-- No word in front of a text is longer than the first stretch, which is no error then. -/
theorem Word.length_le_first (h : Word kind? text) (happend : c :: cs = text ++ rest) :
    (∃ kind?, (Stretch.first c cs).content = .ok kind?) ∧
      text.length ≤ (Stretch.first c cs).text.length := by
  obtain ⟨d, ds, rfl⟩ := List.exists_cons_of_ne_nil h.ne_nil
  obtain ⟨rfl, rfl⟩ := List.cons.inj happend
  unfold Stretch.first
  split
  · rename_i hblank
    refine ⟨⟨_, rfl⟩, ?_⟩
    rcases h.of_mem_isBlank List.mem_cons_self hblank with heq | heq | ⟨body, heq, -⟩
    · rw [heq]
    · cases heq
      exact absurd hblank (by decide)
    · cases heq
      exact absurd hblank (by decide)
  · split
    · rename_i hslash
      obtain ⟨rfl, -⟩ := hslash
      refine ⟨⟨_, rfl⟩, Nat.succ_le_succ ?_⟩
      rcases h.of_slash with rfl | ⟨-, body, hbody, rfl⟩
      · exact Nat.zero_le _
      · refine length_le_takeWhile (fun e he => ?_) rest
        rcases List.mem_cons.mp he with rfl | he
        · decide
        · exact bne_iff_ne.mpr (ne_of_mem_of_not_mem he hbody)
    · rename_i hblank hslash
      generalize htext : c :: ds = text at h
      cases kind? with
      | some kind =>
        obtain ⟨⟨kind', hcontent⟩, hle⟩ := h.length_le_read (congrArg (· ++ rest) htext)
        exact ⟨⟨some kind', by rw [hcontent]; rfl⟩, hle⟩
      | none =>
        cases h with
        | comment =>
          cases htext
          exact absurd ⟨rfl, rfl⟩ hslash
        | blank hc =>
          cases htext
          exact absurd hc hblank

/-- Where no blank and no comment begins, the first stretch is what the reader takes. -/
theorem first_of_read (hblank : isBlank c = false) (hslash : c ≠ '/') (cs : List Char) :
    Stretch.first c cs = ⟨(read c cs).text, (read c cs).content.map some⟩ := by
  rw [Stretch.first, hblank, if_neg Bool.false_ne_true, if_neg fun h => hslash h.1]

/-- A word is its own first stretch. -/
theorem Word.exists_first_eq (h : Word kind? text) :
    ∃ c cs, text = c :: cs ∧ Stretch.first c cs = ⟨text, .ok kind?⟩ := by
  cases h with
  | punct p => cases p <;> exact ⟨_, _, rfl, rfl⟩
  | keyword k => cases k <;> exact ⟨_, _, rfl, rfl⟩
  | string hcontents =>
    refine ⟨_, _, rfl, ?_⟩
    rw [first_of_read (by decide) (by decide), read_string hcontents]
    rfl
  | @number c cs fraction hc hcs hfraction =>
    have hblank : isBlank c = false := by
      by_contra h
      rw [isDigit_of_isBlank (Bool.not_eq_false _ ▸ h)] at hc
      cases hc
    have hslash : c ≠ '/' := by
      rintro rfl
      exact absurd hc (by decide)
    have hnumber := readNumber_digits (List.forall_mem_cons.mpr ⟨hc, hcs⟩) hfraction
    refine ⟨_, _, rfl, ?_⟩
    rw [first_of_read hblank hslash, read_digit hc]
    exact congrArg (fun r : Reading => (⟨r.text, r.content.map some⟩ : Stretch)) hnumber
  | @identifier c cs hc hcs hother =>
    have hkeyword : Keyword.ofSpelling? (c :: cs) = none := by
      rw [Keyword.ofSpelling?, List.find?_eq_none]
      exact fun k _ => by simp [hother k]
    have hall : ∀ d ∈ c :: cs, isWordChar d :=
      List.forall_mem_cons.mpr ⟨isWordChar_of_isLetter hc, hcs⟩
    have hread := @read_identifier c cs [] (isIdentifier_cons.mpr ⟨hc, hall, hkeyword⟩) (by simp)
    rw [List.append_nil] at hread
    refine ⟨_, _, rfl, ?_⟩
    rw [first_of_read (isBlank_of_isLetter hc) (ne_of_isLetter hc (by decide)), hread]
    rfl
  | @comment body hbody =>
    have hall : ∀ d ∈ '/' :: body, (d != '\n') = true :=
      List.forall_mem_cons.mpr ⟨by decide, fun d hd =>
        bne_iff_ne.mpr (ne_of_mem_of_not_mem hd hbody)⟩
    refine ⟨_, _, rfl, ?_⟩
    rw [Stretch.first, List.takeWhile_eq_self_iff.mpr hall]
    rfl
  | blank hc => exact ⟨_, _, rfl, by rw [Stretch.first, if_pos hc]⟩

/-- A text is a word in one way only. -/
theorem Word.kind_unique (h : Word kind? text) (h' : Word kind?' text) : kind? = kind?' := by
  obtain ⟨c, cs, rfl, hfirst⟩ := h.exists_first_eq
  obtain ⟨c', cs', heq, hfirst'⟩ := h'.exists_first_eq
  obtain ⟨rfl, rfl⟩ := List.cons.inj heq
  rw [hfirst] at hfirst'
  exact Except.ok.inj (Stretch.mk.inj hfirst').2

/-- There is one longest word at most, and it has one kind. -/
theorem Longest.unique (h : Longest kind? text ahead) (h' : Longest kind?' text' ahead) :
    text = text' ∧ kind? = kind?' := by
  have hle := h.longest _ _ h'.word h'.isPrefix
  have hle' := h'.longest _ _ h.word h.isPrefix
  have heq : text = text' :=
    (List.prefix_of_prefix_length_le h.isPrefix h'.isPrefix hle').eq_of_length_le hle
  subst heq
  exact ⟨rfl, h.word.kind_unique h'.word⟩

end Longest

/-- No word stands in front of the text. -/
def Wordless (ahead : List Char) : Prop :=
  ∀ kind? text, Word kind? text → ¬ text <+: ahead

/-- The stretch is what has to be taken from the front of a text: the longest word there, or, if
    there is none, the rest behind a quote or a single character. -/
def Stretch.Munches (ahead : List Char) (s : Stretch) : Prop :=
  match s.content with
  | .ok kind? => Longest kind? s.text ahead
  | .error (.unexpectedCharacter c) =>
    s.text = [c] ∧ ahead.head? = some c ∧ c ≠ '"' ∧ Wordless ahead
  | .error .unterminatedString =>
    s.text = ahead ∧ ∃ contents, ahead = '"' :: contents ∧ '"' ∉ contents

namespace Stretch

/-- The first stretch of a text is a prefix of it. -/
theorem first_text_isPrefix (c : Char) (cs : List Char) : (first c cs).text <+: c :: cs := by
  unfold first
  split
  · exact ⟨cs, rfl⟩
  · split
    · exact ⟨cs.dropWhile (· != '\n'), congrArg (c :: ·) List.takeWhile_append_dropWhile⟩
    · exact ⟨_, read_append c cs⟩

/-- The first stretch is a word, or an error without a word in front of the text. -/
theorem first_cases (c : Char) (cs : List Char) :
    (∃ kind?, (first c cs).content = .ok kind? ∧ Word kind? (first c cs).text) ∨
      (c = '"' ∧ '"' ∉ cs ∧ first c cs = ⟨c :: cs, .error .unterminatedString⟩) ∨
      (c ≠ '"' ∧ first c cs = ⟨[c], .error (.unexpectedCharacter c)⟩) := by
  unfold first
  split
  · rename_i hblank
    exact .inl ⟨none, rfl, .blank hblank⟩
  split
  · rename_i hslash
    obtain ⟨rfl, hhead⟩ := hslash
    obtain ⟨cs, rfl⟩ := List.head?_eq_some_iff.mp hhead
    exact .inl ⟨none, rfl, .comment (not_mem_takeWhile_ne '\n' cs)⟩
  · rcases read_cases c cs with ⟨kind, hcontent, hword⟩ | ⟨rfl, hcs, hread⟩ | ⟨hquote, hread⟩
    · exact .inl ⟨some kind, by rw [hcontent]; rfl, hword⟩
    · rw [hread]
      exact .inr (.inl ⟨rfl, hcs, rfl⟩)
    · rw [hread]
      exact .inr (.inr ⟨hquote, rfl⟩)

/-- The first stretch of a text is the longest word there, or the text starts with none. -/
theorem munches_first (c : Char) (cs : List Char) : (first c cs).Munches (c :: cs) := by
  have hlongest : ∀ kind? text, Word kind? text → text <+: c :: cs →
      (∃ kind?, (first c cs).content = .ok kind?) ∧ text.length ≤ (first c cs).text.length := by
    rintro kind? text hword ⟨rest, happend⟩
    exact hword.length_le_first happend.symm
  unfold Munches
  rcases first_cases c cs with ⟨kind?, hcontent, hword⟩ | ⟨rfl, hcs, hfirst⟩ | ⟨hquote, hfirst⟩
  · rw [hcontent]
    exact ⟨hword, first_text_isPrefix c cs, fun _ _ hword' hbegins =>
      (hlongest _ _ hword' hbegins).2⟩
  · rw [hfirst]
    exact ⟨rfl, cs, rfl, hcs⟩
  · rw [hfirst] at hlongest ⊢
    refine ⟨rfl, rfl, hquote, fun kind? text hword hbegins => ?_⟩
    -- Where there is a word, there is no error.
    obtain ⟨⟨_, hcontent⟩, -⟩ := hlongest kind? text hword hbegins
    cases hcontent

end Stretch

end Lox

import Lox.Proofs.Text.Slice
import Lox.Proofs.Token.Tiling

/-!
Reading a source byte by byte. A `Cursor` keeps indices into the bytes of the source and cuts the
lexemes out of it. Its steps fail where an index is out of range, or a cut falls into a character.
None of them ever does, and a cursor yields what the reader does.
-/

namespace Lox

open Text

/-- The lexeme that is being read starts at byte `start`, and `curr` is the next byte to look at. A
    kind that is recognized is `pending` until its token is yielded. -/
structure Cursor where
  start : Nat
  curr : Nat
  line : Nat
  pending : Option Kind
  done : Bool

namespace Cursor

def atStart : Cursor :=
  ⟨0, 0, 1, none, false⟩

section Steps

variable (source : List Char)

def isAtEnd (c : Cursor) : Bool :=
  byteLength source ≤ c.curr

/-- One byte further. Bytes are looked at as the characters with their codes. -/
def advance? (c : Cursor) : Option (Char × Cursor) := do
  let b ← (utf8 source)[c.curr]?
  return (Char.ofUInt8 b, { c with curr := c.curr + 1 })

/-- The byte at an index, or zero behind the end. -/
def byteAt (index : Nat) : Char :=
  Char.ofUInt8 ((utf8 source)[index]?.getD 0)

def peek (c : Cursor) : Char :=
  byteAt source c.curr

def peekNext (c : Cursor) : Char :=
  byteAt source (c.curr + 1)

def matchByte? (expected : Char) (c : Cursor) : Option (Bool × Cursor) :=
  if !c.isAtEnd source && c.peek source == expected then do
    let (_, c) ← c.advance? source
    return (true, c)
  else
    return (false, c)

def recognize (kind : Kind) (c : Cursor) : Except LexicalError Unit × Cursor :=
  (.ok (), { c with pending := some kind })

/-- Two characters are read together if the second is `=`. -/
def either? (withEqual alone : Punct) (c : Cursor) :
    Option (Except LexicalError Unit × Cursor) := do
  let (matched, c) ← c.matchByte? source '='
  return c.recognize (.punct (if matched then withEqual else alone))

/-- On while the next byte passes the test, which fails if zero passes behind the end. -/
def advanceWhile? (test : Char → Bool) (c : Cursor) : Option Cursor :=
  if test (c.peek source) then
    if c.isAtEnd source then none else advanceWhile? test { c with curr := c.curr + 1 }
  else
    some c
termination_by byteLength source - c.curr
decreasing_by
  simp only [isAtEnd, decide_eq_true_eq] at *
  omega

/-- Everything up to the line break, which the next step counts. -/
def skipComment? (c : Cursor) : Option Cursor :=
  if c.curr ≤ byteLength source then
    match ((utf8 source).drop c.curr).findIdx? (Char.ofUInt8 · == '\n') with
    | some distance => some { c with curr := c.curr + distance }
    | none => some { c with curr := byteLength source }
  else
    none

/-- On up to a quote or the end, counting lines. -/
def advanceString? (c : Cursor) : Option Cursor :=
  if c.isAtEnd source then
    some c
  else if c.peek source == '"' then
    some c
  else
    let line := if c.peek source == '\n' then c.line + 1 else c.line
    advanceString? { c with curr := c.curr + 1, line := line }
termination_by byteLength source - c.curr
decreasing_by
  simp only [isAtEnd, decide_eq_true_eq] at *
  omega

def parseString? (c : Cursor) : Option (Except LexicalError Unit × Cursor) := do
  let openedOn := c.line
  let c ← c.advanceString? source
  if c.isAtEnd source then
    return (.error ⟨openedOn, .unterminatedString⟩, c)
  else do
    let (_, c) ← c.advance? source
    let contents ← slice? source (c.start + 1) (c.curr - 1)
    return c.recognize (.string (String.ofList contents))

/-- The number a text of digits and at most one point stands for. -/
def numberOf (text : List Char) : Float :=
  Lexeme.valueOf (text.takeWhile Lexeme.isDigit)
    (Lexeme.splitFraction (text.dropWhile Lexeme.isDigit)).1

/-- A point and digits, if a digit follows the point. -/
def advanceFraction? (c : Cursor) : Option Cursor :=
  if c.peek source == '.' && Lexeme.isDigit (c.peekNext source) then do
    let (_, c) ← c.advance? source
    c.advanceWhile? source Lexeme.isDigit
  else
    return c

def parseNumber? (c : Cursor) : Option (Except LexicalError Unit × Cursor) := do
  let c ← c.advanceWhile? source Lexeme.isDigit
  let c ← c.advanceFraction? source
  let text ← slice? source c.start c.curr
  return c.recognize (.number (numberOf text))

/-- Keywords are looked up by their bytes. -/
def parseIdentifier? (c : Cursor) : Option (Except LexicalError Unit × Cursor) := do
  let c ← c.advanceWhile? source Lexeme.isWordChar
  if c.start ≤ c.curr ∧ c.curr ≤ byteLength source then
    let word := ((utf8 source).take c.curr).drop c.start
    match Keyword.all.find? fun k => utf8 k.spelling = word with
    | some k => return c.recognize (.keyword k)
    | none => return c.recognize .identifier
  else
    none

def unexpected? (c : Cursor) : Option (Except LexicalError Unit × Cursor) := do
  let (_, behind) ← splitAt? c.start source
  let d := behind.head?.getD '\uFFFD'
  return (.error ⟨c.line, .unexpectedCharacter d⟩, { c with curr := c.start + d.utf8Size })

/-- Reads one lexeme, or skips a blank or a comment. -/
def scanToken? (c : Cursor) : Option (Except LexicalError Unit × Cursor) := do
  let (b, c) ← c.advance? source
  match b with
  | '(' => return c.recognize (.punct .leftParen)
  | ')' => return c.recognize (.punct .rightParen)
  | '\x7b' => return c.recognize (.punct .leftBrace)
  | '\x7d' => return c.recognize (.punct .rightBrace)
  | ',' => return c.recognize (.punct .comma)
  | '.' => return c.recognize (.punct .dot)
  | '-' => return c.recognize (.punct .minus)
  | '+' => return c.recognize (.punct .plus)
  | ';' => return c.recognize (.punct .semicolon)
  | '*' => return c.recognize (.punct .star)
  | '!' => c.either? source .bangEqual .bang
  | '=' => c.either? source .equalEqual .equal
  | '<' => c.either? source .lessEqual .less
  | '>' => c.either? source .greaterEqual .greater
  | ' ' | '\r' | '\t' => return (.ok (), c)
  | '\n' => return (.ok (), { c with line := c.line + 1 })
  | '/' => do
    let (matched, c) ← c.matchByte? source '/'
    if matched then return (.ok (), ← c.skipComment? source)
    else return c.recognize (.punct .slash)
  | '"' => c.parseString? source
  | b =>
    if Lexeme.isDigit b then c.parseNumber? source
    else if Lexeme.isLetter b then c.parseIdentifier? source
    else c.unexpected? source

/-- Goes on until there is an item to yield, which is the end token behind everything else. A step
    that did not come further would be repeated forever, and counts as a failure. -/
def nextItem? (c : Cursor) : Option (Item × Cursor) :=
  if c.isAtEnd source then
    some (.ok (.atEnd c.line (byteLength source)), { c with done := true })
  else
    match scanToken? source { c with start := c.curr, pending := none } with
    | none => none
    | some (.error e, c') => some (.error e, c')
    | some (.ok (), c') =>
      match c'.pending with
      | some kind => do
        let lexeme ← slice? source c'.start c'.curr
        return (.ok ⟨kind, String.ofList lexeme, c'.line, c'.start⟩, { c' with pending := none })
      | none => if c.curr < c'.curr then nextItem? c' else none
termination_by byteLength source - c.curr
decreasing_by
  simp only [isAtEnd, decide_eq_true_eq] at *
  omega

/-- Behind the end token there is nothing more. -/
def next? (c : Cursor) : Option (Option Item × Cursor) :=
  if c.done then
    return (none, c)
  else do
    let (item, c) ← c.nextItem? source
    return (some item, c)

/-- What so many calls yield. -/
def calls? : Nat → Cursor → Option (List (Option Item) × Cursor)
  | 0, c => return ([], c)
  | n + 1, c => do
    let (item, c) ← c.next? source
    let (items, c) ← calls? n c
    return (item :: items, c)

end Steps

section Left

variable {source : List Char} {c : Cursor} {b : UInt8} {bs : List UInt8} {test : Char → Bool}

/-- The bytes a cursor has not looked at. -/
def left (source : List Char) (c : Cursor) : List UInt8 :=
  (utf8 source).drop c.curr

/-- The bytes ahead of a cursor are those of the source from its index on. -/
theorem getElem?_left (n : Nat) : (utf8 source)[c.curr + n]? = (c.left source)[n]? :=
  (List.getElem?_drop ..).symm

/-- A cursor is at the end where no byte is ahead. -/
theorem isAtEnd_eq : c.isAtEnd source = (c.left source).isEmpty := by
  rw [isAtEnd, left, Bool.eq_iff_iff, decide_eq_true_iff, List.isEmpty_iff, List.drop_eq_nil_iff,
    length_utf8]

/-- A cursor looks at the first byte ahead, and at a zero where there is none. -/
theorem peek_eq : c.peek source = Char.ofUInt8 ((c.left source).head?.getD 0) := by
  rw [peek, byteAt, List.head?_eq_getElem?]
  exact congrArg (fun b => Char.ofUInt8 (b.getD 0)) (getElem?_left 0)

/-- A cursor that advances moves over the first byte ahead. -/
theorem advance?_eq (h : c.left source = b :: bs) :
    c.advance? source = some (Char.ofUInt8 b, { c with curr := c.curr + 1 }) := by
  have hb := @getElem?_left source c 0
  rw [h, Nat.add_zero, List.getElem?_cons_zero] at hb
  rw [advance?, hb]
  rfl

/-- Further ahead, less is left. -/
theorem left_of_curr (source : List Char) (c' : Cursor) {n : Nat} (h : c'.curr = c.curr + n) :
    c'.left source = (c.left source).drop n := by
  rw [left, left, h, List.drop_drop]

/-- A loop over bytes moves over all that pass the test. -/
theorem advanceWhile?_eq (hzero : test '\x00' = false) (c : Cursor) :
    c.advanceWhile? source test =
      some { c with
        curr := c.curr + ((c.left source).takeWhile fun b => test (Char.ofUInt8 b)).length } := by
  induction hleft : c.left source generalizing c with
  | nil =>
    rw [advanceWhile?, peek_eq, hleft, if_neg]
    · rfl
    · exact Bool.eq_false_iff.mp hzero
  | cons b bs ih =>
    rw [advanceWhile?, peek_eq, isAtEnd_eq, hleft]
    cases htest : test (Char.ofUInt8 b) with
    | false => simp [htest]
    | true =>
      have hrest := left_of_curr source { c with curr := c.curr + 1 } rfl
      rw [hleft] at hrest
      simp [htest, ih _ hrest]
      omega

/-- A string is passed up to its closing quote, and the line breaks in it are counted. -/
theorem advanceString?_eq (c : Cursor) :
    c.advanceString? source =
      some { c with
        curr := c.curr + ((c.left source).takeWhile (Char.ofUInt8 · != '"')).length
        line := c.line + ((c.left source).takeWhile (Char.ofUInt8 · != '"')).countP
          (Char.ofUInt8 · == '\n') } := by
  induction hleft : c.left source generalizing c with
  | nil =>
    rw [advanceString?, isAtEnd_eq, hleft]
    rfl
  | cons b bs ih =>
    rw [advanceString?, isAtEnd_eq, peek_eq, hleft]
    by_cases hquote : Char.ofUInt8 b = '"'
    · simp [hquote]
    · have hrest := fun line =>
        left_of_curr source { c with curr := c.curr + 1, line := line } rfl
      simp only [hleft, List.drop_one, List.tail_cons] at hrest
      by_cases hbreak : Char.ofUInt8 b = '\n'
      · simp [hbreak, ih _ (hrest _)]
        omega
      · simp [hquote, hbreak, ih _ (hrest _)]
        omega

/-- How far the first byte is that passes, or the end. -/
theorem findIdx?_getD_length (test : UInt8 → Bool) (bs : List UInt8) :
    (bs.findIdx? test).getD bs.length = (bs.takeWhile fun b => !test b).length := by
  induction bs with
  | nil => rfl
  | cons b bs ih =>
    rw [List.findIdx?_cons]
    cases htest : test b with
    | true => simp [htest]
    | false => cases hrest : bs.findIdx? test <;> simp_all

/-- A comment is passed up to the next line break. -/
theorem skipComment?_eq (h : c.curr ≤ byteLength source) :
    c.skipComment? source =
      some { c with
        curr := c.curr + ((c.left source).takeWhile (Char.ofUInt8 · != '\n')).length } := by
  have hdistance : (c.left source).length = byteLength source - c.curr := by
    rw [left, List.length_drop, length_utf8]
  have hlength := findIdx?_getD_length (Char.ofUInt8 · == '\n') (c.left source)
  rw [skipComment?, if_pos h]
  change (match (c.left source).findIdx? (Char.ofUInt8 · == '\n') with
    | some distance => _
    | none => _) = _
  simp only [bne, ← hlength]
  cases (c.left source).findIdx? (Char.ofUInt8 · == '\n') with
  | some distance => rfl
  | none => rw [Option.getD_none, hdistance, Nat.add_sub_cancel' h]

end Left

section Stands

/-! A cursor that has read some of a lexeme, between characters. -/

/-- The cursor has read `text` of the lexeme behind `front`, and goes on with `ahead`. -/
structure Stands (c : Cursor) (source front text ahead : List Char) : Prop where
  source_eq : source = front ++ (text ++ ahead)
  start_eq : c.start = byteLength front
  curr_eq : c.curr = byteLength front + byteLength text

/-- The line is the same, and what has been recognized. -/
structure Keeps (c c' : Cursor) : Prop where
  line : c'.line = c.line
  pending : c'.pending = c.pending
  done : c'.done = c.done

theorem Keeps.rfl {c : Cursor} : c.Keeps c :=
  ⟨Eq.refl _, Eq.refl _, Eq.refl _⟩

theorem Keeps.trans {c₁ c₂ c₃ : Cursor} (h₁ : c₁.Keeps c₂) (h₂ : c₂.Keeps c₃) : c₁.Keeps c₃ :=
  ⟨h₂.line.trans h₁.line, h₂.pending.trans h₁.pending, h₂.done.trans h₁.done⟩

variable {source front text ahead cs : List Char} {c c' : Cursor} {d : Char}
  {test : Char → Bool}

namespace Stands

/-- Where a cursor stands in a text, the bytes ahead are those of the rest of the text. -/
theorem left (h : c.Stands source front text ahead) : c.left source = utf8 ahead := by
  have hlength : c.curr = (utf8 (front ++ text)).length := by
    rw [length_utf8, byteLength_append, h.curr_eq]
  rw [Cursor.left, h.source_eq, ← List.append_assoc, utf8_append, hlength, List.drop_left]

/-- A cursor that is further by some text has read that text, too. -/
theorem onward (more : List Char) (h : c.Stands source front text (more ++ ahead))
    (hstart : c'.start = c.start) (hcurr : c'.curr = c.curr + byteLength more) :
    c'.Stands source front (text ++ more) ahead := by
  refine ⟨?_, hstart.trans h.start_eq, ?_⟩
  · rw [h.source_eq, List.append_assoc]
  · rw [hcurr, h.curr_eq, byteLength_append, Nat.add_assoc]

/-- The lexeme behind a cursor is cut out as a whole. -/
theorem slice?_eq (h : c.Stands source front text ahead) :
    slice? source c.start c.curr = some text := by
  rw [h.source_eq, h.start_eq, h.curr_eq, slice?_append]

/-- A cursor is at the end where no character is ahead. -/
theorem isAtEnd_eq (h : c.Stands source front text ahead) : c.isAtEnd source = ahead.isEmpty := by
  rw [Cursor.isAtEnd_eq, h.left]
  cases ahead with
  | nil => rfl
  | cons d cs =>
    obtain ⟨b, bs, hbytes, -⟩ := exists_utf8EncodeChar_eq d
    rw [utf8_cons, hbytes]
    rfl

/-- What the next byte is tested for, the next character is tested for. -/
theorem test_peek (h : c.Stands source front text ahead) (htest : Bytewise test)
    (hzero : test '\x00' = false) : test (c.peek source) = ahead.head?.any test := by
  rw [peek_eq, h.left]
  cases ahead with
  | nil => exact hzero
  | cons d cs =>
    obtain ⟨b, bs, hbytes, -⟩ := exists_utf8EncodeChar_eq d
    have hb := htest.of_mem (hbytes ▸ List.mem_cons_self)
    rw [utf8_cons, hbytes]
    exact hb

/-- The next byte is the next character, or the first byte of a wide one. -/
theorem advance?_eq (h : c.Stands source front text (d :: cs)) :
    ∃ b, c.advance? source = some (b, { c with curr := c.curr + 1 }) ∧
      (b = d ∧ ¬ Wide d ∨ Wide b ∧ Wide d) := by
  obtain ⟨b, bs, hbytes, hb⟩ := exists_utf8EncodeChar_eq d
  have hleft := h.left
  rw [utf8_cons, hbytes, List.cons_append] at hleft
  exact ⟨_, Cursor.advance?_eq hleft, hb⟩

/-- A cursor moves over a narrow character in one step. -/
theorem advance?_of_not_wide (h : c.Stands source front text (d :: cs)) (hd : ¬ Wide d) :
    ∃ c', c.advance? source = some (d, c') ∧ c'.Stands source front (text ++ [d]) cs ∧
      c.Keeps c' := by
  obtain ⟨b, hadvance, ⟨rfl, -⟩ | ⟨-, hwide⟩⟩ := h.advance?_eq
  · have hsize : b.utf8Size = 1 := Char.utf8Size_eq_one_iff.mpr (UInt32.not_lt.mp hd)
    exact ⟨_, hadvance, onward [b] h rfl (by simp [byteLength, hsize]), rfl, rfl, rfl⟩
  · exact absurd hwide hd

/-- A test of the byte after the next is one of the character there. -/
theorem test_peekNext (h : c.Stands source front text (d :: cs)) (hd : ¬ Wide d)
    (htest : Bytewise test) (hzero : test '\x00' = false) :
    test (c.peekNext source) = cs.head?.any test := by
  have hsize : d.utf8Size = 1 := Char.utf8Size_eq_one_iff.mpr (UInt32.not_lt.mp hd)
  have hnext : ({ c with curr := c.curr + 1 } : Cursor).Stands source front (text ++ [d]) cs :=
    onward [d] h rfl (by simp [byteLength, hsize])
  exact hnext.test_peek htest hzero

/-- A loop over bytes takes the characters that pass the test, and never stops inside one. -/
theorem advanceWhile?_eq (h : c.Stands source front text ahead) (htest : Bytewise test)
    (hzero : test '\x00' = false) :
    ∃ c', c.advanceWhile? source test = some c' ∧
      c'.Stands source front (text ++ ahead.takeWhile test) (ahead.dropWhile test) ∧
      c.Keeps c' := by
  refine ⟨_, Cursor.advanceWhile?_eq hzero c, onward (c := c) (ahead.takeWhile test) ?_ rfl ?_,
    rfl, rfl, rfl⟩
  · rwa [List.takeWhile_append_dropWhile]
  · rw [h.left, takeWhile_utf8 htest, length_utf8]

/-- A string is passed up to its closing quote, whatever characters are in it. -/
theorem advanceString?_eq (h : c.Stands source front text ahead) :
    ∃ c', c.advanceString? source = some c' ∧
      c'.Stands source front (text ++ ahead.takeWhile (· != '"')) (ahead.dropWhile (· != '"')) ∧
      c'.line = c.line + (ahead.takeWhile (· != '"')).count '\n' ∧ c'.done = c.done := by
  have hquote : Bytewise (· != '"') :=
    bytewise_of_wide true fun d hd => bne_iff_ne.mpr (wide_ne hd (by decide))
  have htake := takeWhile_utf8 hquote ahead
  refine ⟨_, Cursor.advanceString?_eq c, onward (c := c) (ahead.takeWhile (· != '"')) ?_ rfl ?_,
    ?_, rfl⟩
  · rwa [List.takeWhile_append_dropWhile]
  · rw [h.left, htake, length_utf8]
  · rw [h.left, htake, countP_utf8 fun d hd => beq_false_of_ne (wide_ne hd (by decide))]
    rfl

/-- The bytes between the two indices. -/
theorem bytes_eq (h : c.Stands source front text ahead) :
    ((utf8 source).take c.curr).drop c.start = utf8 text := by
  have hstart : c.start = (utf8 front).length := by rw [length_utf8, h.start_eq]
  have hcurr : c.curr = (utf8 front ++ utf8 text).length := by
    rw [List.length_append, length_utf8, length_utf8, h.curr_eq]
  rw [h.source_eq, utf8_append, utf8_append, ← List.append_assoc, hcurr, List.take_left, hstart,
    List.drop_left]

/-- A cursor that stands in a text never leaves it. -/
theorem curr_le (h : c.Stands source front text ahead) : c.curr ≤ byteLength source := by
  rw [h.source_eq, h.curr_eq, byteLength_append, byteLength_append]
  omega

/-- A narrow character is recognized by its byte. -/
theorem peek_beq (h : c.Stands source front text ahead) (hd : ¬ Wide d) (hzero : d ≠ '\x00') :
    (c.peek source == d) = (ahead.head? == some d) := by
  have htest : Bytewise (· == d) :=
    bytewise_of_wide false fun e he => beq_false_of_ne fun heq => hd (heq ▸ he)
  rw [h.test_peek htest (beq_false_of_ne hzero.symm)]
  cases ahead <;> rfl

/-- A cursor that matches the character ahead moves over it. -/
theorem matchByte?_of_head (h : c.Stands source front text (d :: cs)) (hd : ¬ Wide d)
    (hzero : d ≠ '\x00') :
    ∃ c', c.matchByte? source d = some (true, c') ∧ c'.Stands source front (text ++ [d]) cs ∧
      c.Keeps c' := by
  obtain ⟨c', hadvance, hstands⟩ := h.advance?_of_not_wide hd
  refine ⟨c', ?_, hstands⟩
  rw [matchByte?, h.isAtEnd_eq, h.peek_beq hd hzero, hadvance]
  simp

/-- A cursor that does not match the character ahead stays. -/
theorem matchByte?_of_ne (h : c.Stands source front text ahead) (hd : ¬ Wide d)
    (hzero : d ≠ '\x00') (hne : ahead.head? ≠ some d) :
    c.matchByte? source d = some (false, c) := by
  rw [matchByte?, h.peek_beq hd hzero, beq_false_of_ne hne]
  simp

/-- A comment is passed up to its end, whatever characters are in it. -/
theorem skipComment?_eq (h : c.Stands source front text ahead) :
    ∃ c', c.skipComment? source = some c' ∧
      c'.Stands source front (text ++ ahead.takeWhile (· != '\n')) (ahead.dropWhile (· != '\n')) ∧
      c.Keeps c' := by
  have hbreak : Bytewise (· != '\n') :=
    bytewise_of_wide true fun d hd => bne_iff_ne.mpr (wide_ne hd (by decide))
  refine ⟨_, Cursor.skipComment?_eq h.curr_le, onward (c := c) (ahead.takeWhile (· != '\n')) ?_ rfl
    ?_, rfl, rfl, rfl⟩
  · rwa [List.takeWhile_append_dropWhile]
  · rw [h.left, takeWhile_utf8 hbreak, length_utf8]

end Stands

end Stands

end Cursor

end Lox

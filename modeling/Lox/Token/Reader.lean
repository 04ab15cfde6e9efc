import Lox.Token

/-!
Reading source text into tokens. A `Reader` holds the text that is still ahead and the position of
its first character; `Reader.next?` skips blanks and comments and yields one token or one error.
-/

namespace Lox

inductive LexicalProblem
  | unexpectedCharacter (c : Char)
  | unterminatedString
deriving DecidableEq

structure LexicalError where
  line : Nat
  problem : LexicalProblem
deriving DecidableEq

def LexicalProblem.message : LexicalProblem → String
  | unexpectedCharacter c => "Unexpected character: " ++ String.singleton c
  | unterminatedString => "Unterminated string."

/-- Lines count from one, offsets count bytes of UTF-8 from zero. -/
structure Position where
  line : Nat
  offset : Nat
deriving DecidableEq

/-- The length of a text in bytes of UTF-8. -/
def byteLength : List Char → Nat
  | [] => 0
  | c :: cs => c.utf8Size + byteLength cs

/-- The position just behind `text`. -/
def Position.past (p : Position) (text : List Char) : Position :=
  ⟨p.line + text.count '\n', p.offset + byteLength text⟩

theorem byteLength_append (a b : List Char) :
    byteLength (a ++ b) = byteLength a + byteLength b := by
  induction a with
  | nil => simp [byteLength]
  | cons c a ih => simp [byteLength, ih, Nat.add_assoc]

/-- To pass two texts is to pass them together. -/
theorem Position.past_append (p : Position) (a b : List Char) :
    p.past (a ++ b) = (p.past a).past b := by
  simp [Position.past, byteLength_append, List.count_append, Nat.add_assoc]

namespace Lexeme

def isBlank (c : Char) : Bool :=
  c == ' ' || c == '\r' || c == '\t' || c == '\n'

def isDigit (c : Char) : Bool :=
  '0' ≤ c && c ≤ '9'

def isLetter (c : Char) : Bool :=
  ('a' ≤ c && c ≤ 'z') || ('A' ≤ c && c ≤ 'Z') || c == '_'

def isWordChar (c : Char) : Bool :=
  isLetter c || isDigit c

/-- Splits off the blanks and comments in front. Inside a comment everything up to the line break
    is skipped, and the break itself is a blank. -/
def splitTrivia : Bool → List Char → List Char × List Char
  | false, '/' :: '/' :: cs =>
    let (skipped, ahead) := splitTrivia true cs
    ('/' :: '/' :: skipped, ahead)
  | inComment, c :: cs =>
    if (inComment && c != '\n') || isBlank c then
      let (skipped, ahead) := splitTrivia (inComment && c != '\n') cs
      (c :: skipped, ahead)
    else
      ([], c :: cs)
  | _, [] => ([], [])

/-- Nothing is lost in front of a lexeme. -/
theorem splitTrivia_append (inComment : Bool) (cs : List Char) :
    (splitTrivia inComment cs).1 ++ (splitTrivia inComment cs).2 = cs := by
  fun_induction splitTrivia inComment cs <;> simp_all

/-- One lexeme: what it is, its text, and the text that follows. -/
structure Reading where
  content : Except LexicalProblem Kind
  text : List Char
  ahead : List Char

/-- The number that digits before and after a decimal point stand for, correctly rounded. -/
def valueOf (whole fraction : List Char) : Float :=
  let coefficient := (whole ++ fraction).foldl (fun n c => 10 * n + (c.toNat - '0'.toNat)) 0
  Float.ofScientific coefficient true fraction.length

/-- The `.digits` of a number, or nothing: a point needs a digit behind it. -/
def splitFraction : List Char → List Char × List Char
  | '.' :: d :: cs =>
    if isDigit d then ((d :: cs).takeWhile isDigit, (d :: cs).dropWhile isDigit)
    else ([], '.' :: d :: cs)
  | cs => ([], cs)

def readNumber (cs : List Char) : Reading :=
  let whole := cs.takeWhile isDigit
  let (fraction, ahead) := splitFraction (cs.dropWhile isDigit)
  let text := if fraction.isEmpty then whole else whole ++ '.' :: fraction
  ⟨.ok (.number (valueOf whole fraction)), text, ahead⟩

def readWord (cs : List Char) : Reading :=
  let word := cs.takeWhile isWordChar
  let kind := match Keyword.ofSpelling? word with
    | some k => Kind.keyword k
    | none => Kind.identifier
  ⟨.ok kind, word, cs.dropWhile isWordChar⟩

/-- Reads a string whose opening quote is already taken. It may span lines. -/
def readString (cs : List Char) : Reading :=
  let contents := cs.takeWhile (· != '"')
  match cs.dropWhile (· != '"') with
  | [] => ⟨.error .unterminatedString, '"' :: contents, []⟩
  | quote :: ahead => ⟨.ok (.string (String.ofList contents)), '"' :: contents ++ [quote], ahead⟩

/-- Reads punctuation, two characters where they belong together. -/
def readPunct (c : Char) (cs : List Char) : Reading :=
  match Punct.ofSpelling? (c :: cs.take 1), Punct.ofSpelling? [c] with
  | some p, _ => ⟨.ok (.punct p), c :: cs.take 1, cs.drop 1⟩
  | none, some p => ⟨.ok (.punct p), [c], cs⟩
  | none, none => ⟨.error (.unexpectedCharacter c), [c], cs⟩

/-- Reads the lexeme that starts with `c`. -/
def read (c : Char) (cs : List Char) : Reading :=
  if c = '"' then readString cs
  else if isDigit c then readNumber (c :: cs)
  else if isLetter c then readWord (c :: cs)
  else readPunct c cs

theorem splitFraction_append (cs : List Char) :
    (if (splitFraction cs).1.isEmpty then [] else '.' :: (splitFraction cs).1) ++
      (splitFraction cs).2 = cs := by
  fun_cases splitFraction cs with
  | case1 d cs h => simp [h, List.takeWhile_append_dropWhile]
  | case2 => simp_all
  | case3 => simp

theorem readNumber_append (cs : List Char) :
    (readNumber cs).text ++ (readNumber cs).ahead = cs := by
  have hrest := splitFraction_append (cs.dropWhile isDigit)
  have hwhole := List.takeWhile_append_dropWhile (p := isDigit) (l := cs)
  unfold readNumber
  split at hrest <;> simp_all

theorem readString_append (cs : List Char) :
    (readString cs).text ++ (readString cs).ahead = '"' :: cs := by
  have hall := List.takeWhile_append_dropWhile (p := (· != '"')) (l := cs)
  unfold readString
  split
  · simp_all
  · rename_i quote ahead hrest
    rw [hrest] at hall
    simpa using hall

/-- A lexeme and the text behind it make up what was ahead. -/
theorem read_append (c : Char) (cs : List Char) :
    (read c cs).text ++ (read c cs).ahead = c :: cs := by
  unfold read
  split
  · rename_i hquote
    rw [hquote]
    exact readString_append cs
  · split
    · exact readNumber_append (c :: cs)
    · split
      · exact List.takeWhile_append_dropWhile
      · unfold readPunct
        split
        · exact congrArg (c :: ·) (List.take_append_drop 1 cs)
        · rfl
        · rfl

end Lexeme

/-- What the reader yields: a token, or an error in the place of one. -/
abbrev Item := Except LexicalError Token

structure Reader where
  position : Position
  ahead : List Char
  finished : Bool

namespace Reader

def ofString (source : String) : Reader :=
  ⟨⟨1, 0⟩, source.toList, false⟩

/-- A token carries the line on which it ends, an error the line on which its text starts. The end
    of the source is yielded once, as the last item. -/
def next? (r : Reader) : Option (Item × Reader) :=
  if r.finished then none
  else
    let (trivia, ahead) := Lexeme.splitTrivia false r.ahead
    let start := r.position.past trivia
    match ahead with
    | [] => some (.ok (.atEnd start.line start.offset), ⟨start, [], true⟩)
    | c :: cs =>
      let lexeme := Lexeme.read c cs
      let stop := start.past lexeme.text
      let item := match lexeme.content with
        | .ok kind => .ok ⟨kind, String.ofList lexeme.text, stop.line, start.offset⟩
        | .error problem => .error ⟨start.line, problem⟩
      some (item, ⟨stop, lexeme.ahead, false⟩)

/-- At most `limit` items. -/
def items : Nat → Reader → List Item
  | 0, _ => []
  | limit + 1, r =>
    match r.next? with
    | none => []
    | some (item, r) => item :: items limit r

end Reader

/-- All items of a source. Each but the last takes a character, so there is one more than there are
    characters at most. -/
def readItems (source : String) : List Item :=
  (Reader.ofString source).items (source.toList.length + 1)

/-- The tokens of a source, which end in its only end token, and the errors found on the way. -/
structure Tokens where
  tokens : List Token
  errors : List LexicalError

def Tokens.ofItems (items : List Item) : Tokens where
  tokens := items.filterMap fun
    | .ok t => some t
    | .error _ => none
  errors := items.filterMap fun
    | .ok _ => none
    | .error e => some e

def Tokens.ofString (source : String) : Tokens :=
  ofItems (readItems source)

end Lox

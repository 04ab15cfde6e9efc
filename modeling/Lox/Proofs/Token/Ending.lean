import Mathlib.Tactic
import Lox.Token.Reader
import Lox.Grammar.Rule

namespace Lox

/-- No token is an end. -/
def EndFree (ts : List Token) : Prop :=
  ∀ t ∈ ts, t.isEnd = false

@[simp]
theorem endFree_nil : EndFree [] := by
  simp [EndFree]

@[simp]
theorem endFree_cons {t : Token} {ts : List Token} :
    EndFree (t :: ts) ↔ t.isEnd = false ∧ EndFree ts :=
  List.forall_mem_cons

/-- A list is free of ends where both its parts are. -/
@[simp]
theorem endFree_append {ts us : List Token} : EndFree (ts ++ us) ↔ EndFree ts ∧ EndFree us :=
  List.forall_mem_append

theorem endFree_singleton {t : Token} : EndFree [t] ↔ t.isEnd = false :=
  List.forall_mem_singleton

namespace Lexeme

theorem takeWhile_ne_nil {test : Char → Bool} {c : Char} (h : test c) (cs : List Char) :
    (c :: cs).takeWhile test ≠ [] := by
  rw [List.takeWhile_cons_of_pos h]
  simp

/-- Every lexeme takes a character. -/
theorem read_text_ne_nil (c : Char) (cs : List Char) : (read c cs).text ≠ [] := by
  unfold read
  split
  · unfold readString
    split <;> simp
  · split
    · rename_i hdigit
      have hwhole := takeWhile_ne_nil hdigit cs
      unfold readNumber
      split
      dsimp only
      split <;> simp [hwhole]
    · split
      · rename_i hletter
        have hword : isWordChar c := by simp [isWordChar, hletter]
        exact takeWhile_ne_nil hword cs
      · unfold readPunct
        split <;> simp

/-- Behind a lexeme, less is ahead. -/
theorem length_ahead_lt (c : Char) (cs : List Char) :
    (read c cs).ahead.length < (c :: cs).length := by
  rw [← read_append c cs, List.length_append]
  have hpos := List.length_pos_of_ne_nil (read_text_ne_nil c cs)
  omega

/-- No lexeme is the end of a source. -/
theorem read_content_ne_eof (c : Char) (cs : List Char) : (read c cs).content ≠ .ok .eof := by
  unfold read
  split
  · unfold readString
    split <;> simp
  · split
    · simp [readNumber]
    · split
      · unfold readWord
        dsimp only
        split <;> simp
      · unfold readPunct
        split <;> simp

end Lexeme

/-- The item for a lexeme whose text starts at `start`. -/
def Lexeme.Reading.item (start : Position) (reading : Lexeme.Reading) : Item :=
  match reading.content with
  | .ok kind =>
    .ok ⟨kind, String.ofList reading.text, (start.past reading.text).line, start.offset⟩
  | .error problem => .error ⟨start.line, problem⟩

namespace Reader

variable {position : Position} {c : Char} {cs rest trivia : List Char} {limit : Nat}

/-- Behind blanks and comments only the end is left. -/
theorem items_of_splitTrivia_nil (h : Lexeme.splitTrivia false cs = (trivia, [])) :
    items (limit + 1) ⟨position, cs, false⟩ =
      [.ok (.atEnd (position.past trivia).line (position.past trivia).offset)] := by
  rw [items, next?, h]
  cases limit with
  | zero => rfl
  | succ limit => rfl

/-- Behind blanks and comments a lexeme is read, and reading goes on behind it. -/
theorem items_of_splitTrivia_cons (h : Lexeme.splitTrivia false cs = (trivia, c :: rest)) :
    items (limit + 1) ⟨position, cs, false⟩ =
      (Lexeme.read c rest).item (position.past trivia) ::
        items limit ⟨(position.past trivia).past (Lexeme.read c rest).text,
          (Lexeme.read c rest).ahead, false⟩ := by
  rw [items, next?, h]
  rfl

theorem length_le_of_splitTrivia (h : Lexeme.splitTrivia false cs = (trivia, rest)) :
    rest.length ≤ cs.length := by
  have happend := congrArg List.length (Lexeme.splitTrivia_append false cs)
  rw [h, List.length_append] at happend
  exact happend ▸ Nat.le_add_left _ _

/-- An item is a token exactly where the reading has a kind, and lies where its text ends. -/
theorem item_eq_ok_iff {start : Position} {reading : Lexeme.Reading} {t : Token} :
    reading.item start = .ok t ↔ ∃ kind, reading.content = .ok kind ∧
      t = ⟨kind, String.ofList reading.text, (start.past reading.text).line, start.offset⟩ := by
  unfold Lexeme.Reading.item
  cases reading.content with
  | error problem => simp
  | ok kind => simp [eq_comm]

/-- No token that is read is the end. -/
theorem not_isEnd_of_item {start : Position} {t : Token}
    (h : (Lexeme.read c cs).item start = .ok t) : t.isEnd = false := by
  obtain ⟨kind, hcontent, rfl⟩ := item_eq_ok_iff.mp h
  have hkind := Lexeme.read_content_ne_eof c cs
  rw [hcontent] at hkind
  cases kind with
  | eof => exact absurd rfl hkind
  | _ => rfl

/-- The end is the last item, and no other item is one. -/
theorem items_eq_append_end (hlimit : cs.length < limit) :
    ∃ items last, Reader.items limit ⟨position, cs, false⟩ = items ++ [.ok last] ∧ last.isEnd ∧
      ∀ t, .ok t ∈ items → t.isEnd = false := by
  induction limit generalizing position cs with
  | zero => omega
  | succ limit ih =>
    rcases htrivia : Lexeme.splitTrivia false cs with ⟨trivia, _ | ⟨c, rest⟩⟩
    · exact ⟨[], _, items_of_splitTrivia_nil htrivia, rfl, by simp⟩
    · have hlength := length_le_of_splitTrivia htrivia
      have hshorter := Lexeme.length_ahead_lt c rest
      obtain ⟨items, last, hitems, hlast, hothers⟩ :=
        @ih ((position.past trivia).past (Lexeme.read c rest).text) (Lexeme.read c rest).ahead
          (by omega)
      refine ⟨(Lexeme.read c rest).item (position.past trivia) :: items, last, ?_, hlast, ?_⟩
      · rw [items_of_splitTrivia_cons htrivia, hitems]
        rfl
      · intro t ht
        rcases List.mem_cons.mp ht with heq | ht
        · exact not_isEnd_of_item heq.symm
        · exact hothers t ht

end Reader

/-- The tokens of a source stop at its end. -/
theorem Tokens.exists_ofString_eq (source : String) :
    ∃ ts last, (Tokens.ofString source).tokens = ts ++ [last] ∧ EndFree ts ∧ last.isEnd := by
  obtain ⟨items, last, hitems, hlast, hothers⟩ := @Reader.items_eq_append_end
    ⟨1, 0⟩ source.toList _ (Nat.lt_succ_self _)
  refine ⟨(Tokens.ofItems items).tokens, last, ?_, ?_, hlast⟩
  · rw [Tokens.ofString, readItems, Reader.ofString, hitems, Tokens.ofItems, List.filterMap_append]
    rfl
  · intro t ht
    obtain ⟨item, hitem, hsome⟩ := List.mem_filterMap.mp ht
    cases item with
    | error => cases hsome
    | ok u =>
      cases hsome
      exact hothers t hitem

end Lox

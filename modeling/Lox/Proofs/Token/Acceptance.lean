import Lox.Proofs.Token.Similar

namespace Lox

/-- The place of a token when this text is put in front of its source. -/
def Token.behind (text : List Char) (t : Token) : Token :=
  { t with line := t.line + text.count '\n', offset := t.offset + byteLength text }

/-- Texts may be passed in either order. -/
theorem Position.past_comm (p : Position) (a b : List Char) :
    (p.past a).past b = (p.past b).past a := by
  simp only [past, Nat.add_right_comm]

namespace Reader

/-- From this position on the text is read into these tokens, without an error. -/
inductive Accepts : Position → List Char → List Token → Prop
  | nil {position : Position} {cs trivia : List Char}
      (htrivia : Lexeme.splitTrivia false cs = (trivia, [])) : Accepts position cs []
  | cons {position : Position} {cs trivia rest : List Char} {c : Char} {t : Token}
      {ts : List Token} (htrivia : Lexeme.splitTrivia false cs = (trivia, c :: rest))
      (hitem : (Lexeme.read c rest).item (position.past trivia) = .ok t)
      (hrest : Accepts ((position.past trivia).past (Lexeme.read c rest).text)
        (Lexeme.read c rest).ahead ts) : Accepts position cs (t :: ts)

variable {position : Position} {cs : List Char} {ts : List Token} {limit : Nat}

/-- A text whose items hold no error is accepted. -/
theorem accepts_of_items (hlimit : cs.length < limit)
    (h : (Tokens.ofItems (items limit ⟨position, cs, false⟩)).errors = []) :
    ∃ ts last, (Tokens.ofItems (items limit ⟨position, cs, false⟩)).tokens = ts ++ [last] ∧
      last.isEnd ∧ Accepts position cs ts := by
  induction limit generalizing position cs with
  | zero => omega
  | succ limit ih =>
    rcases htrivia : Lexeme.splitTrivia false cs with ⟨trivia, _ | ⟨c, rest⟩⟩
    · rw [items_of_splitTrivia_nil htrivia]
      exact ⟨[], _, rfl, rfl, .nil htrivia⟩
    · rw [items_of_splitTrivia_cons htrivia] at h ⊢
      have hlength := length_le_of_splitTrivia htrivia
      have hshorter := Lexeme.length_ahead_lt c rest
      cases hitem : (Lexeme.read c rest).item (position.past trivia) with
      | error e => simp [hitem, Tokens.ofItems] at h
      | ok t =>
        rw [hitem] at h
        obtain ⟨ts, last, htokens, hlast, haccepts⟩ := ih (by omega) h
        refine ⟨t :: ts, last, ?_, hlast, .cons htrivia hitem haccepts⟩
        exact congrArg (t :: ·) htokens

/-- An accepted text has its tokens and the end as its items. -/
theorem Accepts.ofItems (h : Accepts position cs ts) (hlimit : cs.length < limit) :
    ∃ last, last.isEnd ∧
      Tokens.ofItems (items limit ⟨position, cs, false⟩) = ⟨ts ++ [last], []⟩ := by
  induction h generalizing limit with
  | nil htrivia =>
    obtain ⟨limit, rfl⟩ := Nat.exists_eq_succ_of_ne_zero (Nat.ne_of_gt (Nat.zero_lt_of_lt hlimit))
    rw [items_of_splitTrivia_nil htrivia]
    exact ⟨_, rfl, rfl⟩
  | @cons position cs trivia rest c t ts htrivia hitem _ ih =>
    obtain ⟨limit, rfl⟩ := Nat.exists_eq_succ_of_ne_zero (Nat.ne_of_gt (Nat.zero_lt_of_lt hlimit))
    have hlength := length_le_of_splitTrivia htrivia
    have hshorter := Lexeme.length_ahead_lt c rest
    obtain ⟨last, hlast, hitems⟩ := @ih limit (by omega)
    rw [items_of_splitTrivia_cons htrivia, hitem]
    refine ⟨last, hlast, ?_⟩
    obtain ⟨htokens, herrors⟩ := Tokens.mk.inj hitems
    exact congrArg₂ Tokens.mk (congrArg (t :: ·) htokens) herrors

/-- Behind some text, an item lies later by the lines and bytes of the text. -/
theorem item_past {reading : Lexeme.Reading} {t : Token} (h : reading.item position = .ok t)
    (text : List Char) : reading.item (position.past text) = .ok (t.behind text) := by
  obtain ⟨kind, hkind, rfl⟩ := item_eq_ok_iff.mp h
  refine item_eq_ok_iff.mpr ⟨kind, hkind, ?_⟩
  rw [Position.past_comm]
  rfl

/-- Behind further text the same tokens are read, at other places. -/
theorem Accepts.behind (h : Accepts position cs ts) (text : List Char) :
    Accepts (position.past text) cs (ts.map (Token.behind text)) := by
  induction h with
  | nil htrivia => exact .nil htrivia
  | cons htrivia hitem _ ih =>
    refine .cons htrivia ?_ ?_
    · rw [Position.past_comm]
      exact item_past hitem text
    · rwa [Position.past_comm _ text, Position.past_comm _ text]

end Reader

/-- A source without lexical errors is read into its tokens, and its end stands behind them. -/
theorem Tokens.exists_accepts {source : String} (h : (Tokens.ofString source).errors = []) :
    ∃ ts last, (Tokens.ofString source).tokens = ts ++ [last] ∧ EndFree ts ∧ last.isEnd ∧
      Reader.Accepts ⟨1, 0⟩ source.toList ts := by
  obtain ⟨ts, last, htokens, hlast, haccepts⟩ :=
    Reader.accepts_of_items (Nat.lt_succ_self source.toList.length) h
  obtain ⟨us, last', htokens', hfree, -⟩ := exists_ofString_eq source
  obtain ⟨rfl, -⟩ := List.append_inj' (htokens.symm.trans htokens') rfl
  exact ⟨ts, last, htokens, hfree, hlast, haccepts⟩

end Lox

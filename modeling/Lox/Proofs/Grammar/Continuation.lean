import Lox.Proofs.Grammar.Segment
import Lox.Proofs.Grammar.Totality

namespace Lox

/-- A parser gives one reply only. -/
theorem Gives.reply_unique {α : Type} {tokens : List Token} {eof i k l : Nat} {p : Parser α}
    {reply reply' : Reply α} (h : Gives tokens eof i k p reply)
    (h' : Gives tokens eof i l p reply') : reply = reply' := by
  obtain ⟨result, errors, rest⟩ := reply
  obtain ⟨result', errors', rest'⟩ := reply'
  obtain ⟨j, events, hp, rfl, -⟩ := h
  obtain ⟨j', events', hp', rfl, -⟩ := h'
  rw [hp] at hp'
  cases hp'
  rfl

namespace Grammar

open Rule

variable {tokens rest left ts us : List Token} {eof i m n m' n' : Nat} {last : Token}

/-- A program stops at the end and nowhere else. -/
theorem stopsAt_isAtEnd : StopsAt Parser.isAtEnd fun _ => false := by
  intro tokens i t ht
  rw [Bool.or_false]
  exact steps_isAtEnd ht

/-- Bounds that are not exceeded by the tokens make no difference, also to what is malformed: the
    parser over the same tokens knows no bounds, and its fuel may be the same for both. -/
theorem declarations_eq_of_bounds (h : Ended tokens eof) (hi : i ≤ eof) (hm : eof < i + m)
    (hn : eof < i + n) (hm' : eof < i + m') (hn' : eof < i + n') :
    declarations (declaration m) (fun _ => false) n (tokens.drop i) =
      declarations (declaration m') (fun _ => false) n' (tokens.drop i) := by
  have hgives {k l : Nat} (hk : eof < i + k) (hl : eof < i + l) :
      Gives tokens eof i i
        (Indexed.declarations (Indexed.declaration (eof + 1)) Parser.isAtEnd (eof + 1))
        (declarations (declaration k) (fun _ => false) l (tokens.drop i)) := by
    have hnested : NestedFrom tokens eof i (Indexed.declaration (eof + 1)) (declaration k) :=
      (gives_statement_declaration h (by omega) hk).2
    exact gives_declarations h stopsAt_isAtEnd hnested (Nat.le_refl i) hi (by omega) hl
  exact (hgives hm hn).reply_unique (hgives hm' hn')

/-- What stands in front of nothing but the end and other declarations is no `else`. -/
theorem front_flatMap_ne_else {parts : List Part}
    (hparts : ∀ part ∈ parts,
      Category.declaration.Derives true part.tokens part.tree part.dangling)
    (hrest : (front rest).isKeyword .else = false) :
    (front (parts.flatMap Part.tokens ++ rest)).isKeyword .else = false := by
  cases parts with
  | nil => simpa using hrest
  | cons part parts =>
    obtain ⟨t, us, htokens, hstart, -⟩ := (hparts part List.mem_cons_self).exists_first
    have hopen := not_closed_of_startsDeclaration hstart
    simp only [Bool.or_eq_false_iff] at hopen
    simp [htokens, front, hopen.2]

/-- Declarations without errors, and behind them what is read there, whatever that is. -/
theorem declarations_append {parts : List Part} {ss : List (Stmt Unit)} {errors : List SyntaxError}
    (hparts : ∀ part ∈ parts,
      Category.declaration.Derives true part.tokens part.tree part.dangling)
    (helse : (front rest).isKeyword .else = false)
    (hrest : ∀ k, rest.length ≤ k →
      declarations (declaration m) (fun _ => false) k rest = ⟨some ss, errors, left⟩)
    (hm : (parts.flatMap Part.tokens ++ rest).length ≤ m)
    (hn : (parts.flatMap Part.tokens ++ rest).length ≤ n) :
    declarations (declaration m) (fun _ => false) n (parts.flatMap Part.tokens ++ rest) =
      ⟨some (parts.map Part.tree ++ ss), errors, left⟩ := by
  induction parts generalizing n with
  | nil => exact hrest n hn
  | cons part parts ih =>
    obtain ⟨hpart, hparts⟩ := List.forall_mem_cons.mp hparts
    obtain ⟨t, us, htokens, hstart, -⟩ := hpart.exists_first
    have hopen := not_closed_of_startsDeclaration hstart
    simp only [Bool.or_eq_false_iff] at hopen
    have hpos : 0 < part.tokens.length := by simp [htokens]
    simp only [List.flatMap_cons, List.append_assoc, List.length_append] at hm hn ⊢
    obtain ⟨n, rfl⟩ : ∃ k, n = k + 1 := Nat.exists_eq_succ_of_ne_zero (by omega)
    have hfirst : (declaration m).Reads (part.tokens ++ (parts.flatMap Part.tokens ++ rest))
        part.tree (parts.flatMap Part.tokens ++ rest) :=
      hpart.complete (by simpa using hm) fun _ => front_flatMap_ne_else hparts helse
    have hothers := ih hparts (n := n) (by simp only [List.length_append]; omega)
      (by simp only [List.length_append]; omega)
    have hfront : ((front (part.tokens ++ (parts.flatMap Part.tokens ++ rest))).isEnd ||
        false) = false := by
      rw [htokens, List.cons_append, front, hopen.1.1]
      rfl
    exact declarations_cons hfront hfirst hothers

/-- A program without errors keeps its trees in front of any other tokens that do not begin with an
    `else`, and adds no errors to theirs. -/
theorem program_append {eof : Token} (hts : EndFree ts) (heof : eof.isEnd) (hus : EndFree us)
    (hlast : last.isEnd) (helse : (front (us ++ [last])).isKeyword .else = false)
    (h : (program (ts ++ [eof])).errors = []) :
    program (ts ++ (us ++ [last])) =
      ⟨(program (ts ++ [eof])).statements ++ (program (us ++ [last])).statements,
        (program (us ++ [last])).errors, (program (us ++ [last])).rest⟩ := by
  obtain ⟨parts, rfl, htrees, hparts⟩ := program_sound hts heof h
  generalize hn : (parts.flatMap Part.tokens ++ (us ++ [last])).length = n
  have hended := ended_append hus hlast
  have hlong : us.length < n := by
    rw [List.length_append, List.length_append, List.length_singleton] at hn
    omega
  have hbehind : declarations (declaration (us ++ [last]).length) (fun _ => false)
      (us ++ [last]).length (us ++ [last]) =
        ⟨some (program (us ++ [last])).statements, (program (us ++ [last])).errors,
          (program (us ++ [last])).rest⟩ := by
    obtain ⟨ss, hss⟩ := Option.ne_none_iff_exists'.mp (declarations_ne_none
      (declaration (us ++ [last]).length) (fun _ => false) (us ++ [last]).length (us ++ [last]))
    rw [program, hss, Option.getD_some, ← hss]
  have hrest (k : Nat) (hk : (us ++ [last]).length ≤ k) :
      declarations (declaration n) (fun _ => false) k (us ++ [last]) =
        ⟨some (program (us ++ [last])).statements, (program (us ++ [last])).errors,
          (program (us ++ [last])).rest⟩ := by
    have hlength : (us ++ [last]).length = us.length + 1 := by simp
    rw [← hbehind]
    exact declarations_eq_of_bounds hended (Nat.zero_le _) (by omega) (by omega) (by omega)
      (by omega)
  have hwhole := declarations_append hparts helse hrest (Nat.le_of_eq hn) (Nat.le_of_eq hn)
  rw [program, hn, hwhole, htrees]
  rfl

/-- A statement to which an `else` could still be added. -/
def openIf : List Token :=
  [⟨.keyword .if, "if", 1, 0⟩, ⟨.punct .leftParen, "(", 1, 3⟩, ⟨.identifier, "a", 1, 4⟩,
    ⟨.punct .rightParen, ")", 1, 5⟩, ⟨.identifier, "b", 1, 7⟩, ⟨.punct .semicolon, ";", 1, 8⟩]

/-- A program is kept in front of tokens of which no declaration can be read. -/
theorem program_append_garbage :
    (EndFree openIf ∧ EndFree garbage ∧ (program (openIf ++ [.atEnd 1 9])).errors = []) ∧
      (program (openIf ++ (garbage ++ [.atEnd 1 9]))).statements =
        [.if (.var () ⟨.identifier, "a", 1, 4⟩)
          (.expression (.var () ⟨.identifier, "b", 1, 7⟩)) none] ∧
      (program (openIf ++ (garbage ++ [.atEnd 1 9]))).errors.length = 3 := by
  have hif : EndFree openIf := by simp [openIf, EndFree, Token.isEnd]
  have hgarbage : EndFree garbage := by simp [garbage, EndFree, Token.isEnd]
  have herrors : (program (openIf ++ [.atEnd 1 9])).errors = [] := rfl
  have happend := program_append hif (rfl : (Token.atEnd 1 9).isEnd) hgarbage
    (rfl : (Token.atEnd 1 9).isEnd) rfl herrors
  refine ⟨⟨hif, hgarbage, herrors⟩, ?_, ?_⟩
  · rw [happend]
    rfl
  · rw [happend]
    rfl

end Grammar

end Lox

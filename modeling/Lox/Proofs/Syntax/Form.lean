import Lox.Syntax.Text
import Lox.Proofs.Token.Similar

namespace Lox

inductive Form
  | word (text : List Char)
  | node (head : List Char) (parts : List Form)

/-- The character neither ends a word nor starts a form with parts. -/
def Form.isPlain (c : Char) : Bool :=
  c != ' ' && c != '(' && c != ')'

mutual

def Form.chars : Form → List Char
  | .word text => text
  | .node head parts => '(' :: head ++ Form.charsAll parts ++ [')']

/-- Every form behind a blank. -/
def Form.charsAll : List Form → List Char
  | [] => []
  | form :: forms => ' ' :: form.chars ++ Form.charsAll forms

end

mutual

/-- Words and heads are made of plain characters. -/
def Form.Plain : Form → Prop
  | .word text => ∀ c ∈ text, isPlain c
  | .node head parts => (∀ c ∈ head, isPlain c) ∧ Form.PlainAll parts

def Form.PlainAll : List Form → Prop
  | [] => True
  | form :: forms => form.Plain ∧ Form.PlainAll forms

end

namespace Form

variable {text text' rest rest' : List Char}

theorem isPlain_iff {c : Char} : isPlain c ↔ c ≠ ' ' ∧ c ≠ '(' ∧ c ≠ ')' := by
  simp [isPlain, and_assoc]

/-- What may stand behind a word. -/
def Delimited (rest : List Char) : Prop :=
  ∀ c ∈ rest.head?, c = ' ' ∨ c = ')'

/-- What delimits a word does not belong to it. -/
theorem Delimited.isPlain_eq_false (h : Delimited rest) : ∀ c ∈ rest.head?, isPlain c = false := by
  intro c hc
  obtain rfl | rfl := h c hc <;> rfl

/-- A word goes as far as plain characters do. -/
theorem word_append_inj (htext : ∀ c ∈ text, isPlain c) (htext' : ∀ c ∈ text', isPlain c)
    (hrest : Delimited rest) (hrest' : Delimited rest') (h : text ++ rest = text' ++ rest') :
    text = text' ∧ rest = rest' := by
  obtain ⟨htake, hdrop⟩ := Lexeme.takeWhile_append_of_all htext hrest.isPlain_eq_false
  obtain ⟨htake', hdrop'⟩ := Lexeme.takeWhile_append_of_all htext' hrest'.isPlain_eq_false
  rw [h] at htake hdrop
  exact ⟨htake.symm.trans htake', hdrop.symm.trans hdrop'⟩

/-- The parts of a form delimit its head. -/
theorem delimited_charsAll (forms : List Form) (rest : List Char) :
    Delimited (charsAll forms ++ ')' :: rest) := by
  intro c hc
  cases forms with
  | nil => exact .inr (Option.some.inj hc).symm
  | cons form forms => exact .inl (Option.some.inj hc).symm

/-- No word starts like a form with parts. -/
theorem word_append_ne (htext : ∀ c ∈ text, isPlain c) (hrest : Delimited rest)
    (rest' : List Char) : text ++ rest ≠ '(' :: rest' := by
  intro h
  cases text with
  | nil =>
    rw [List.nil_append] at h
    rw [h] at hrest
    exact absurd (hrest '(' rfl) (by decide)
  | cons c text =>
    have hc := htext c List.mem_cons_self
    rw [(List.cons.inj h).1] at hc
    exact absurd hc (by decide)

theorem node_append (head : List Char) (parts : List Form) (rest : List Char) :
    (node head parts).chars ++ rest = '(' :: (head ++ (charsAll parts ++ ')' :: rest)) := by
  simp [chars]

mutual

/-- A form is read back from the front of a text. -/
theorem chars_append_inj {f g : Form} {rest rest' : List Char} (hf : f.Plain) (hg : g.Plain)
    (hrest : Delimited rest) (hrest' : Delimited rest')
    (h : f.chars ++ rest = g.chars ++ rest') : f = g ∧ rest = rest' := by
  cases f with
  | word text =>
    cases g with
    | word text' =>
      obtain ⟨rfl, hrests⟩ := word_append_inj hf hg hrest hrest' h
      exact ⟨rfl, hrests⟩
    | node head parts =>
      rw [node_append] at h
      exact absurd h (word_append_ne hf hrest _)
  | node head parts =>
    cases g with
    | word text' =>
      rw [node_append] at h
      exact absurd h.symm (word_append_ne hg hrest' _)
    | node head' parts' =>
      rw [node_append, node_append] at h
      obtain ⟨rfl, hparts⟩ := word_append_inj hf.1 hg.1 (delimited_charsAll parts rest)
        (delimited_charsAll parts' rest') (List.cons.inj h).2
      obtain ⟨rfl, hrests⟩ := charsAll_append_inj hf.2 hg.2 hparts
      exact ⟨rfl, hrests⟩

/-- The parts of a form can be told apart, and so can what stands behind them. -/
theorem charsAll_append_inj {fs gs : List Form} {rest rest' : List Char} (hfs : PlainAll fs)
    (hgs : PlainAll gs) (h : charsAll fs ++ ')' :: rest = charsAll gs ++ ')' :: rest') :
    fs = gs ∧ rest = rest' := by
  cases fs with
  | nil =>
    cases gs with
    | nil => exact ⟨rfl, (List.cons.inj h).2⟩
    | cons g gs => exact absurd (List.cons.inj h).1 (by decide)
  | cons f fs =>
    cases gs with
    | nil => exact absurd (List.cons.inj h).1 (by decide)
    | cons g gs =>
      rw [charsAll, charsAll, List.cons_append, List.cons_append, List.cons_append,
        List.cons_append, List.append_assoc, List.append_assoc] at h
      obtain ⟨rfl, hbehind⟩ := chars_append_inj hfs.1 hgs.1 (delimited_charsAll fs rest)
        (delimited_charsAll gs rest') (List.cons.inj h).2
      obtain ⟨rfl, hrests⟩ := charsAll_append_inj hfs.2 hgs.2 hbehind
      exact ⟨rfl, hrests⟩

end

/-- The text tells the form. -/
theorem chars_inj {f g : Form} (hf : f.Plain) (hg : g.Plain) (h : f.chars = g.chars) : f = g := by
  have hnil : Delimited [] := by
    intro c hc
    cases hc
  exact (chars_append_inj hf hg hnil hnil (congrArg (· ++ []) h)).1

end Form

end Lox

import Lox.Proofs.Scoping.Alike
import Lox.Proofs.Token.LineBreak

namespace Lox

open Lexeme

/-- Blanks, and comments that end at a line break. -/
inductive Spacing : List Char → Prop
  | nil : Spacing []
  | blank {c : Char} {cs : List Char} (hc : isBlank c) (hcs : Spacing cs) : Spacing (c :: cs)
  | comment {body cs : List Char} (hbody : '\n' ∉ body) (hcs : Spacing cs) :
      Spacing ('/' :: '/' :: (body ++ '\n' :: cs))

/-- The lexemes of the tokens, with spacing behind each that starts with a blank. Behind the last
    there may be none. -/
inductive Spaced : List Token → List Char → Prop
  | nil : Spaced [] []
  | cons {t : Token} {ts : List Token} {gap text : List Char} (hgap : Spacing gap)
      (hstarts : gap.head?.any isBlank ∨ gap = [] ∧ ts = []) (h : Spaced ts text) :
      Spaced (t :: ts) (t.lexeme.toList ++ (gap ++ text))

/-- The text is taken apart without an error, into tokens of these kinds and lexemes and into what
    is skipped. -/
def ReadsAs (text : List Char) (ts : List Token) : Prop :=
  ∃ ss, Munched text ss ∧ ∀ position, ∃ ts' last,
    Tokens.ofItems (Stretch.items position ss) = ⟨ts' ++ [last], []⟩ ∧ last.isEnd ∧
      List.Forall₂ Token.SameText ts ts'

variable {kind? : Option Kind} {kind : Kind} {d : Char} {cs text gap : List Char} {t : Token}
  {ts : List Token}

/-- A token ends where a blank follows. -/
theorem Word.longest_of_blank (h : Word (some kind) text) (hd : isBlank d) (cs : List Char) :
    Longest (some kind) text (text ++ d :: cs) := by
  refine ⟨h, List.prefix_append _ _, fun kind?' text' hword hbegins => ?_⟩
  rcases hword.across_blank hbegins hd h.ne_nil with hshort | ⟨contents, rfl, hcontents⟩ | hslashes
  · exact hshort.length_le
  · exact absurd (List.prefix_refl _) (wordless_of_unterminated hcontents _ _ h)
  -- Two slashes are no token, so the comment would have had to start in front of the blank.
  · obtain ⟨-, body, rfl⟩ := hslashes
    rcases h.of_slash with heq | ⟨heq, -⟩ <;> cases heq

/-- A word is the longest one of its own text. -/
theorem Word.longest_self (h : Word kind? text) : Longest kind? text text :=
  ⟨h, List.prefix_refl _, fun _ _ _ hbegins => hbegins.length_le⟩

namespace ReadsAs

/-- No tokens are read from no text. -/
theorem nil : ReadsAs [] [] :=
  ⟨[], .nil, fun _ => ⟨[], _, rfl, rfl, .nil⟩⟩

/-- A stretch that leaves no token may be written in front. -/
theorem skip {s : Stretch} (hs : s.Munches (s.text ++ text)) (hcontent : s.content = .ok none)
    (h : ReadsAs text ts) : ReadsAs (s.text ++ text) ts := by
  obtain ⟨ss, hss, hreads⟩ := h
  refine ⟨s :: ss, .cons hs hss, fun position => ?_⟩
  have hitems : Stretch.items position (s :: ss) = Stretch.items (position.past s.text) ss := by
    rw [Stretch.items, Stretch.item?, hcontent]
    rfl
  rw [hitems]
  exact hreads _

/-- A blank may be written in front. -/
theorem blank (hd : isBlank d) (h : ReadsAs text ts) : ReadsAs (d :: text) ts := by
  have hfirst : Stretch.first d text = ⟨[d], .ok none⟩ := if_pos hd
  have hmunches := Stretch.munches_first d text
  rw [hfirst] at hmunches
  exact h.skip (s := ⟨[d], .ok none⟩) hmunches rfl

/-- Blanks and comments may be written in front. -/
theorem spacing (hgap : Spacing gap) (h : ReadsAs text ts) : ReadsAs (gap ++ text) ts := by
  induction hgap with
  | nil => exact h
  | blank hc _ ih => exact ih.blank hc
  | @comment body cs hbody _ ih =>
    have hmunches : Stretch.Munches ('/' :: '/' :: body ++ '\n' :: (cs ++ text))
        ⟨'/' :: '/' :: body, .ok none⟩ :=
      (Word.comment hbody).longest_self.append_newline _
    have hbreak : isBlank '\n' := by decide
    have hskipped := (ih.blank hbreak).skip (s := ⟨'/' :: '/' :: body, .ok none⟩) hmunches rfl
    simpa using hskipped

/-- A lexeme is read as its token if a blank follows, or nothing. -/
theorem token (ht : Word (some t.kind) t.lexeme.toList) (htext : ∀ d ∈ text.head?, isBlank d)
    (h : ReadsAs text ts) : ReadsAs (t.lexeme.toList ++ text) (t :: ts) := by
  obtain ⟨ss, hss, hreads⟩ := h
  have hmunches : Stretch.Munches (t.lexeme.toList ++ text)
      ⟨t.lexeme.toList, .ok (some t.kind)⟩ := by
    cases text with
    | nil =>
      rw [List.append_nil]
      exact ht.longest_self
    | cons d text => exact ht.longest_of_blank (htext d rfl) text
  have hmunched := Munched.cons (s := ⟨t.lexeme.toList, .ok (some t.kind)⟩) hmunches hss
  refine ⟨_, hmunched, fun position => ?_⟩
  obtain ⟨ts', last, hitems, hlast, hsame⟩ := hreads (position.past t.lexeme.toList)
  obtain ⟨htokens, herrors⟩ := Tokens.mk.inj hitems
  refine ⟨_ :: ts', last, congrArg₂ Tokens.mk (congrArg (_ :: ·) htokens) herrors, hlast,
    .cons ⟨rfl, ?_⟩ hsame⟩
  exact String.ofList_toList

end ReadsAs

/-- Words that are kept apart by blanks and comments are read as their tokens. -/
theorem Spaced.readsAs (h : Spaced ts text)
    (hwords : ∀ t ∈ ts, Word (some t.kind) t.lexeme.toList) : ReadsAs text ts := by
  induction h with
  | nil => exact .nil
  | @cons t ts gap text hgap hstarts hspaced ih =>
    obtain ⟨hfirst, hothers⟩ := List.forall_mem_cons.mp hwords
    refine .token hfirst ?_ ((ih hothers).spacing hgap)
    rcases hstarts with hblank | ⟨rfl, rfl⟩
    · cases gap with
      | nil => cases hblank
      | cons d gap => simpa using hblank
    · cases hspaced
      simp

/-- The lexeme of a token is a word of its kind. -/
theorem Munched.word_of_mem_items {ss : List Stretch} {position : Position} (h : Munched cs ss)
    (ht : .ok t ∈ Stretch.items position ss) (hend : t.isEnd = false) :
    Word (some t.kind) t.lexeme.toList := by
  induction h generalizing position with
  | nil =>
    cases List.mem_singleton.mp ht
    cases hend
  | @cons s cs ss hs _ ih =>
    rcases List.mem_append.mp ht with ht | ht
    · have hitem := Option.mem_toList.mp ht
      unfold Stretch.Munches at hs
      unfold Stretch.item? at hitem
      cases hcontent : s.content with
      | error problem =>
        rw [hcontent] at hitem
        cases hitem
      | ok kind? =>
        rw [hcontent] at hs hitem
        cases kind? with
        | none => cases hitem
        | some kind =>
          cases hitem
          rw [String.toList_ofList]
          exact hs.word
    · exact ih ht

/-- Whatever blanks and comments the lexemes of a source are written with, as long as a blank comes
    first behind each of them, they are read into the same tokens without an error. -/
theorem scan_spaced (source : String) :
    ∃ ts last, (Tokens.ofString source).tokens = ts ++ [last] ∧ EndFree ts ∧ last.isEnd ∧
      ∀ lead text, Spacing lead → Spaced ts text →
        ∃ ts' last', Tokens.ofString (String.ofList (lead ++ text)) = ⟨ts' ++ [last'], []⟩ ∧
          last'.isEnd ∧ List.Forall₂ Token.SameText ts ts' := by
  obtain ⟨ts, last, htokens, hfree, hlast⟩ := Tokens.exists_ofString_eq source
  refine ⟨ts, last, htokens, hfree, hlast, fun lead text hlead hspaced => ?_⟩
  have hwords : ∀ t ∈ ts, Word (some t.kind) t.lexeme.toList := by
    intro t ht
    obtain ⟨ss, hss⟩ := Munched.exists_munched source.toList
    have hmem : t ∈ (Tokens.ofString source).tokens := by
      rw [htokens]
      exact List.mem_append_left _ ht
    obtain ⟨item, hitem, hsome⟩ := List.mem_filterMap.mp hmem
    rw [readItems, Reader.ofString, Reader.items_of_munched hss (Nat.lt_succ_self _)] at hitem
    cases item with
    | error => cases hsome
    | ok u =>
      cases hsome
      exact hss.word_of_mem_items hitem (hfree t ht)
  obtain ⟨ss, hss, hreads⟩ := (hspaced.readsAs hwords).spacing hlead
  obtain ⟨ts', last', hitems, hlast', hsame⟩ := hreads ⟨1, 0⟩
  refine ⟨ts', last', ?_, hlast', hsame⟩
  rw [← hitems, Tokens.ofString, readItems, Reader.ofString, String.toList_ofList,
    Reader.items_of_munched hss (Nat.lt_succ_self _)]

/-- Seven tokens that touch. The dot could go on with the number and the slash start a comment. -/
def touching : String :=
  "a<=1.b/c"

/-- Tokens that touch are read again when spaces and comments come between them. -/
theorem scan_spaced_touching :
    ∃ ts last ts' last', (Tokens.ofString touching).tokens = ts ++ [last] ∧
      ts.map (·.lexeme) = ["a", "<=", "1", ".", "b", "/", "c"] ∧
      Tokens.ofString ("//x\n" ++ "a <= 1\t.\rb / //y\nc") = ⟨ts' ++ [last'], []⟩ ∧
      last'.isEnd ∧ List.Forall₂ Token.SameText ts ts' := by
  have hread : (Tokens.ofString touching).tokens.map (·.lexeme) =
      ["a", "<=", "1", ".", "b", "/", "c"] ++ [""] := by
    decide +kernel
  have hblank (d : Char) (hd : isBlank d) : Spacing [d] := .blank hd .nil
  have hcomment (d : Char) (hd : '\n' ∉ [d]) : Spacing ['/', '/', d, '\n'] :=
    @Spacing.comment [d] [] hd .nil
  obtain ⟨ts, last, htokens, -, -, hall⟩ := scan_spaced touching
  rw [htokens, List.map_append] at hread
  obtain ⟨hlexemes, -⟩ := List.append_inj' hread rfl
  have hspaced : Spaced ts "a <= 1\t.\rb / //y\nc".toList := by
    simp only [List.map_eq_cons_iff, List.map_eq_nil_iff] at hlexemes
    obtain ⟨t₁, _, rfl, h₁, t₂, _, rfl, h₂, t₃, _, rfl, h₃, t₄, _, rfl, h₄, t₅, _, rfl, h₅,
      t₆, _, rfl, h₆, t₇, _, rfl, h₇, rfl⟩ := hlexemes
    have hlast : Spaced [t₇] (t₇.lexeme.toList ++ ([] ++ [])) := .cons .nil (.inr ⟨rfl, rfl⟩) .nil
    have h := Spaced.cons (t := t₁) (hblank ' ' rfl) (.inl rfl) <|
      .cons (t := t₂) (hblank ' ' rfl) (.inl rfl) <|
      .cons (t := t₃) (hblank '\t' rfl) (.inl rfl) <|
      .cons (t := t₄) (hblank '\r' rfl) (.inl rfl) <|
      .cons (t := t₅) (hblank ' ' rfl) (.inl rfl) <|
      .cons (t := t₆) (.blank (c := ' ') rfl (hcomment 'y' (by decide))) (.inl rfl) hlast
    rw [h₁, h₂, h₃, h₄, h₅, h₆, h₇] at h
    exact h
  obtain ⟨ts', last', htokens', hlast', hsame⟩ :=
    hall "//x\n".toList _ (hcomment 'x' (by decide)) hspaced
  exact ⟨ts, last, ts', last', htokens, hlexemes, htokens', hlast', hsame⟩

end Lox

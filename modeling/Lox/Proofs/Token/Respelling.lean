import Lox.Proofs.Scoping.Alike
import Lox.Proofs.Token.Acceptance

namespace Lox

/-- A new name for the variables that have an old one. -/
structure Respelling where
  old : String
  new : String
  isIdentifier_old : Lexeme.isIdentifier old.toList
  isIdentifier_new : Lexeme.isIdentifier new.toList

namespace Respelling

variable (r : Respelling) {n : String} {t : Token}

def name (n : String) : String :=
  if n = r.old then r.new else n

def token (t : Token) : Token :=
  { t with lexeme := r.name t.lexeme }

/-- A token may be respelled or not. -/
def Respells (t t' : Token) : Prop :=
  t' = t ∨ t' = r.token t

variable {r}

@[simp]
theorem lexeme_token (r : Respelling) (t : Token) : (r.token t).lexeme = r.name t.lexeme := rfl

@[simp]
theorem name_old (r : Respelling) : r.name r.old = r.new :=
  if_pos rfl

theorem name_of_ne (h : n ≠ r.old) : r.name n = n :=
  if_neg h

/-- A token with another name is left alone. -/
theorem token_of_ne (h : t.lexeme ≠ r.old) : r.token t = t := by
  rw [token, name_of_ne h]

end Respelling

/-- A token of an identifier may be one of this other identifier. -/
def Token.Renamed (new : String) (t t' : Token) : Prop :=
  t' = t ∨ t.kind = .identifier ∧ t' = { t with lexeme := new }

/-- A renamed token stays where it is. -/
theorem Token.Renamed.place {new : String} {t t' : Token} (h : t.Renamed new t') :
    t'.line = t.line ∧ t'.offset = t.offset := by
  rcases h with rfl | ⟨-, rfl⟩ <;> exact ⟨rfl, rfl⟩

/-- The same word on the same line. -/
structure Token.SameSpot (t t' : Token) : Prop extends t.SameText t' where
  line : t'.line = t.line

/-- A token at the byte where its own byte now is. -/
def Token.shifted (offsets : Nat → Nat) (t : Token) : Token :=
  { t with offset := offsets t.offset }

namespace Lexeme

variable {c : Char} {cs text : List Char}

/-- No word has a line break in it. -/
theorem count_newline_of_word (h : ∀ c ∈ text, isWordChar c) : text.count '\n' = 0 := by
  rw [List.count_eq_zero]
  intro hmem
  exact absurd (h _ hmem) (by decide)

/-- A lexeme, or the identifier that it becomes, is read before any text that is similar to what was
    behind it. -/
theorem exists_respelled_text {new : String} {t t' : Token} (hnew : isIdentifier new.toList)
    (hkind : (read c cs).content = .ok t.kind) (hlexeme : t.lexeme = String.ofList (read c cs).text)
    (hrenamed : t.Renamed new t') :
    ∃ d text, t'.lexeme = String.ofList (d :: text) ∧
      (d :: text).count '\n' = (read c cs).text.count '\n' ∧
      ∀ ds, Similar (read c cs).ahead ds → Similar (c :: cs) (d :: (text ++ ds)) ∧
        read d (text ++ ds) = ⟨.ok t'.kind, d :: text, ds⟩ := by
  have htext := read_text_eq c cs
  have happend := read_append c cs
  rcases hrenamed with rfl | ⟨hidentifier, rfl⟩
  · refine ⟨c, (read c cs).text.tail, by rw [hlexeme, ← htext], by rw [← htext], fun ds h => ?_⟩
    have hread := read_of_similar hkind h
    have hsimilar := h.append (read c cs).text
    rw [happend, htext, List.cons_append] at hsimilar
    rw [hread, ← htext, ← hkind]
    exact ⟨hsimilar, rfl⟩
  · rw [hidentifier] at hkind
    obtain ⟨hletter, hword⟩ := read_of_identifier hkind
    rw [hword]
    cases htoList : new.toList with
    | nil => simp [htoList, isIdentifier] at hnew
    | cons d text =>
      rw [htoList] at hnew
      obtain ⟨hletter', hall, -⟩ := isIdentifier_cons.mp hnew
      have hall' : ∀ d ∈ (readWord (c :: cs)).text, isWordChar d :=
        fun _ => List.mem_takeWhile_imp
      refine ⟨d, text, by rw [← htoList, String.ofList_toList], ?_, fun ds h => ?_⟩
      · rw [count_newline_of_word hall, count_newline_of_word hall']
      · have hstops := h.stops blind_isWordChar (forall_mem_head?_dropWhile _)
        rw [read_identifier hnew hstops, hidentifier]
        exact ⟨.letters hletter hletter', rfl⟩

end Lexeme

namespace Reader

variable {position position' : Position} {cs cs' : List Char} {ts ts' : List Token} {new : String}

/-- No token stands before the place from which the text is read. -/
theorem Accepts.offset_le (h : Accepts position cs ts) : ∀ t ∈ ts, position.offset ≤ t.offset := by
  induction h with
  | nil => simp
  | cons htrivia hitem _ ih =>
    obtain ⟨kind, -, rfl⟩ := item_eq_ok_iff.mp hitem
    rw [List.forall_mem_cons]
    refine ⟨Nat.le_add_right _ _, fun t ht => ?_⟩
    exact Nat.le_trans (Nat.le_trans (Nat.le_add_right _ _) (Nat.le_add_right _ _)) (ih t ht)

/-- A token that is spelled like an identifier is one. -/
theorem Accepts.isIdentifier (h : Accepts position cs ts) :
    ∀ t ∈ ts, Lexeme.isIdentifier t.lexeme.toList → t.kind = .identifier := by
  induction h with
  | nil => simp
  | @cons _ _ _ rest c _ _ htrivia hitem _ ih =>
    obtain ⟨kind, hkind, rfl⟩ := item_eq_ok_iff.mp hitem
    refine List.forall_mem_cons.mpr ⟨fun hidentifier => ?_, ih⟩
    dsimp only at hidentifier
    rw [String.toList_ofList] at hidentifier
    rw [Lexeme.read_content_of_isIdentifier hidentifier] at hkind
    exact (Except.ok.inj hkind).symm

/-- Where a token of an accepted text is respelled, it is one of an identifier. -/
theorem Accepts.renamed (h : Accepts position cs ts) {r : Respelling} {t t' : Token} (ht : t ∈ ts)
    (hrespells : r.Respells t t') : t.Renamed r.new t' := by
  by_cases hold : t.lexeme = r.old
  · rcases hrespells with rfl | rfl
    · exact .inl rfl
    · refine .inr ⟨h.isIdentifier t ht (hold ▸ r.isIdentifier_old), ?_⟩
      rw [Respelling.token, hold, r.name_old]
  · rw [Respelling.Respells, Respelling.token_of_ne hold, or_self] at hrespells
    exact .inl hrespells

theorem offset_lt_past {text : List Char} (h : text ≠ []) :
    position.offset < (position.past text).offset := by
  cases text with
  | nil => exact absurd rfl h
  | cons c text =>
    have hpos := c.utf8Size_pos
    simp only [Position.past, byteLength]
    omega

/-- Renamed tokens stand no further to the front. -/
theorem forall_offset_of_renamed {n : Nat} (hts : List.Forall₂ (Token.Renamed new) ts ts')
    (h : ∀ t ∈ ts, n ≤ t.offset) : ∀ t' ∈ ts', n ≤ t'.offset := by
  induction hts with
  | nil => exact h
  | cons hfirst _ ih =>
    rw [List.forall_mem_cons] at h ⊢
    rw [hfirst.place.2]
    exact ⟨h.1, ih h.2⟩

/-- A token is read in front of others that are read. -/
theorem Accepts.cons_shifted {trivia text rest ahead : List Char} {c : Char} {t : Token}
    {offsets : Nat → Nat} (htrivia : Lexeme.splitTrivia false cs = (trivia, c :: rest))
    (hread : Lexeme.read c rest = ⟨.ok t.kind, text, ahead⟩)
    (hlexeme : t.lexeme = String.ofList text)
    (hline : t.line = ((position.past trivia).past text).line)
    (hlater : ∀ u ∈ ts, t.offset < u.offset)
    (hrest : Accepts ((position.past trivia).past text) ahead (ts.map (Token.shifted offsets))) :
    ∃ offsets, Accepts position cs ((t :: ts).map (Token.shifted offsets)) := by
  let start := (position.past trivia).offset
  have hsame : ts.map (Token.shifted (Function.update offsets t.offset start)) =
      ts.map (Token.shifted offsets) := by
    refine List.map_congr_left fun u hu => ?_
    rw [Token.shifted, Token.shifted, Function.update_of_ne (Nat.ne_of_gt (hlater u hu))]
  refine ⟨Function.update offsets t.offset start, ?_⟩
  rw [List.map_cons, hsame]
  refine .cons htrivia (item_eq_ok_iff.mpr ⟨t.kind, by rw [hread], ?_⟩) (by rwa [hread])
  rw [hread, Token.shifted, Function.update_self, hlexeme, hline]

/-- A text whose identifiers become others can be read into the new tokens. -/
theorem Accepts.respelled (hnew : Lexeme.isIdentifier new.toList) (h : Accepts position cs ts)
    (hts : List.Forall₂ (Token.Renamed new) ts ts') (hline : position'.line = position.line) :
    ∃ cs' offsets, Lexeme.Similar cs cs' ∧
      Accepts position' cs' (ts'.map (Token.shifted offsets)) := by
  induction h generalizing ts' position' with
  | @nil position cs trivia htrivia =>
    cases hts
    have hself := Lexeme.Similar.nil.append cs
    rw [List.append_nil] at hself
    exact ⟨cs, id, hself, .nil htrivia⟩
  | @cons position cs trivia rest c t ts htrivia hitem hrest ih =>
    cases hts with
    | @cons _ t' _ ts' hfirst hothers =>
      have hcs := Lexeme.splitTrivia_append false cs
      rw [htrivia] at hcs
      obtain ⟨kind, hkind, rfl⟩ := item_eq_ok_iff.mp hitem
      obtain ⟨hline', hoffset⟩ := hfirst.place
      have hlater : ∀ u ∈ ts', t'.offset < u.offset := by
        intro u hu
        have hlt := @offset_lt_past (position.past trivia) _ (Lexeme.read_text_ne_nil c rest)
        have hle := forall_offset_of_renamed hothers hrest.offset_le u hu
        rw [hoffset]
        exact Nat.lt_of_lt_of_le hlt hle
      obtain ⟨d, text, hlexeme, hcount, hread⟩ :=
        Lexeme.exists_respelled_text hnew hkind rfl hfirst
      have hlines : ((position'.past trivia).past (d :: text)).line =
          ((position.past trivia).past (Lexeme.read c rest).text).line := by
        simp only [Position.past, hline, hcount]
      -- What follows is respelled first: how far this token reaches depends on it.
      obtain ⟨ahead, offsets, hsimilar, haccepts⟩ := ih hothers hlines
      obtain ⟨hsimilar', hread'⟩ := hread ahead hsimilar
      have hwhole := hsimilar'.append trivia
      rw [hcs] at hwhole
      obtain ⟨offsets', haccepts'⟩ := Accepts.cons_shifted
        (Lexeme.splitTrivia_of_similar htrivia hsimilar') hread' hlexeme
        (hline'.trans hlines.symm) hlater haccepts
      exact ⟨_, offsets', hwhole, haccepts'⟩

end Reader

end Lox

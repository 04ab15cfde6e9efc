import Lox.Proofs.Token.Acceptance
import Lox.Proofs.Token.Munch

namespace Lox

variable {kind? : Option Kind} {ahead cs ds text : List Char} {s : Stretch} {ss ts : List Stretch}
  {position : Position}

/-- The place of an item when this text is put in front of its source. -/
def Item.behind (text : List Char) : Item → Item
  | .ok t => .ok (t.behind text)
  | .error e => .error { e with line := e.line + text.count '\n' }

/-- A word that goes on behind a line break starts with a quote that nothing closes in front of
    it. -/
theorem Word.across_newline (h : Word kind? text) (hbegins : text <+: ahead ++ '\n' :: ds)
    (hahead : ahead ≠ []) :
    text <+: ahead ∨ ∃ contents, ahead = '"' :: contents ∧ '"' ∉ contents := by
  rcases h.across_blank hbegins (by decide) hahead with hshort | hquote | ⟨hne, -⟩
  · exact .inl hshort
  · exact .inr hquote
  · exact absurd rfl hne

/-- The longest word of a text is still the longest where a line break follows the text. -/
theorem Longest.append_newline (h : Longest kind? text ahead) (ds : List Char) :
    Longest kind? text (ahead ++ '\n' :: ds) := by
  refine ⟨h.word, h.isPrefix.trans (List.prefix_append _ _), fun kind?' text' hword hbegins => ?_⟩
  have hahead : ahead ≠ [] := fun hnil =>
    h.word.ne_nil (List.prefix_nil.mp (hnil ▸ h.isPrefix))
  rcases hword.across_newline hbegins hahead with hshort | ⟨contents, rfl, hcontents⟩
  · exact h.longest _ _ hword hshort
  -- A string that is open at the break is no word, and nothing in front of it is.
  · exact absurd h (not_longest_of_wordless (wordless_of_unterminated hcontents))

/-- A complete stretch is munched in the same way before a line break. -/
theorem Stretch.Munches.append_newline (h : s.Munches ahead)
    (hs : s.content ≠ .error .unterminatedString) (ds : List Char) :
    s.Munches (ahead ++ '\n' :: ds) := by
  unfold Munches at h ⊢
  cases hcontent : s.content with
  | ok kind? =>
    rw [hcontent] at h
    exact Longest.append_newline h ds
  | error problem =>
    cases problem with
    | unterminatedString => exact absurd hcontent hs
    | unexpectedCharacter c =>
      rw [hcontent] at h
      obtain ⟨htext, hhead, hquote, hwordless⟩ := h
      obtain ⟨rest, rfl⟩ := List.head?_eq_some_iff.mp hhead
      refine ⟨htext, rfl, hquote, fun kind? text hword hbegins => ?_⟩
      rcases hword.across_newline hbegins (by simp) with hshort | ⟨contents, heq, -⟩
      · exact hwordless _ _ hword hshort
      · exact hquote (List.cons.inj heq).1

/-- Two texts with a line break between them are munched one behind the other. -/
theorem Munched.append_newline (h : Munched cs ss) (h' : Munched ds ts)
    (hss : ∀ s ∈ ss, s.content ≠ .error .unterminatedString) :
    Munched (cs ++ '\n' :: ds) (ss ++ ⟨['\n'], .ok none⟩ :: ts) := by
  induction h with
  | nil => exact .cons (s := ⟨['\n'], .ok none⟩) (Stretch.munches_first '\n' ds) h'
  | @cons s cs ss hs _ ih =>
    obtain ⟨hfirst, hothers⟩ := List.forall_mem_cons.mp hss
    have hmunches := hs.append_newline hfirst ds
    rw [List.append_assoc] at hmunches ⊢
    exact .cons hmunches (ih hothers)

namespace Stretch

/-- The items of some stretches come before those of the stretches behind them. -/
theorem items_append (position : Position) (ss : List Stretch) :
    ∃ items, ∀ ts, Stretch.items position (ss ++ ts) =
      items ++ Stretch.items (position.past (ss.flatMap Stretch.text)) ts := by
  induction ss generalizing position with
  | nil => exact ⟨[], fun _ => rfl⟩
  | cons s ss ih =>
    obtain ⟨items, hitems⟩ := ih (position.past s.text)
    refine ⟨(s.item? position).toList ++ items, fun ts => ?_⟩
    rw [List.cons_append, Stretch.items, hitems, List.flatMap_cons, Position.past_append,
      List.append_assoc]

/-- Behind some text, a stretch has the same item, later by the lines and bytes of the text. -/
theorem item?_past (s : Stretch) (position : Position) (text : List Char) :
    s.item? (position.past text) = (s.item? position).map (Item.behind text) := by
  unfold item?
  cases s.content with
  | ok kind? =>
    cases kind? with
    | none => rfl
    | some kind =>
      rw [Position.past_comm]
      rfl
  | error problem => rfl

/-- Behind further text the same items are yielded, at other places. -/
theorem items_past (position : Position) (text : List Char) (ss : List Stretch) :
    Stretch.items (position.past text) ss =
      (Stretch.items position ss).map (Item.behind text) := by
  induction ss generalizing position with
  | nil => rfl
  | cons s ss ih =>
    rw [Stretch.items, Stretch.items, item?_past, Position.past_comm, ih, List.map_append,
      Option.toList_map]

/-- No stretch has a problem that no item reports. -/
theorem content_ne_of_items {problem : LexicalProblem}
    (h : ∀ line, .error ⟨line, problem⟩ ∉ Stretch.items position ss) :
    ∀ s ∈ ss, s.content ≠ .error problem := by
  induction ss generalizing position with
  | nil => simp
  | cons s ss ih =>
    rw [Stretch.items] at h
    have hothers := ih fun line hmem => h line (List.mem_append_right _ hmem)
    refine List.forall_mem_cons.mpr ⟨fun hcontent => ?_, hothers⟩
    exact h position.line (List.mem_append_left _ (by simp [item?, hcontent]))

end Stretch

/-- The end between two texts goes, and the items of the second are behind the first and its
    break. -/
theorem Munched.items_append_newline (h : Munched cs ss) (position : Position)
    (ts : List Stretch) :
    ∃ items last, Stretch.items position ss = items ++ [.ok last] ∧ last.isEnd ∧
      Stretch.items position (ss ++ ⟨['\n'], .ok none⟩ :: ts) =
        items ++ Stretch.items (position.past (cs ++ ['\n'])) ts := by
  obtain ⟨items, happend⟩ := Stretch.items_append position ss
  have hend := happend []
  rw [List.append_nil] at hend
  refine ⟨items, _, hend, rfl, ?_⟩
  rw [happend, ← h.flatMap_text, Stretch.items, Position.past_append]
  rfl

section Acceptance

/-! The same for a text that is read without errors. -/

variable {us vs : List Token}

/-- Tokens and errors are collected in the order of the items. -/
theorem Tokens.ofItems_append (items items' : List Item) :
    ofItems (items ++ items') =
      ⟨(ofItems items).tokens ++ (ofItems items').tokens,
        (ofItems items).errors ++ (ofItems items').errors⟩ :=
  congrArg₂ Tokens.mk List.filterMap_append List.filterMap_append

/-- A text is accepted exactly where its stretches give tokens and no error. -/
theorem Munched.accepts_iff (h : Munched cs ss) :
    Reader.Accepts position cs us ↔
      ∃ last, last.isEnd ∧ Tokens.ofItems (Stretch.items position ss) = ⟨us ++ [last], []⟩ := by
  have hitems := @Reader.items_of_munched cs position ss _ h (Nat.lt_succ_self _)
  rw [← hitems]
  constructor
  · intro haccepts
    exact haccepts.ofItems (Nat.lt_succ_self _)
  · rintro ⟨last, hlast, heq⟩
    obtain ⟨us', last', htokens, -, haccepts⟩ :=
      Reader.accepts_of_items (Nat.lt_succ_self _) (congrArg Tokens.errors heq)
    rw [heq] at htokens
    obtain ⟨rfl, -⟩ := List.append_inj' htokens rfl
    exact haccepts

/-- Reading goes on behind a line break as if the text began there. -/
theorem Reader.Accepts.append_newline (h : Accepts position cs us)
    (hbehind : Accepts (position.past (cs ++ ['\n'])) ds vs) :
    Accepts position (cs ++ '\n' :: ds) (us ++ vs) := by
  obtain ⟨ss, hss⟩ := Munched.exists_munched cs
  obtain ⟨ts, hts⟩ := Munched.exists_munched ds
  obtain ⟨last, -, hitems⟩ := hss.accepts_iff.mp h
  obtain ⟨last', hlast', hitems'⟩ := hts.accepts_iff.mp hbehind
  have hterminated : ∀ line,
      .error ⟨line, .unterminatedString⟩ ∉ Stretch.items position ss := by
    intro line hmem
    have herror : ⟨line, .unterminatedString⟩ ∈
        (Tokens.ofItems (Stretch.items position ss)).errors :=
      List.mem_filterMap.mpr ⟨_, hmem, rfl⟩
    rw [hitems] at herror
    cases herror
  obtain ⟨items, _, hfront, -, hjoined⟩ := hss.items_append_newline position ts
  rw [hfront, Tokens.ofItems_append] at hitems
  obtain ⟨htokens, herrors⟩ := Tokens.mk.inj hitems
  obtain ⟨htokens, -⟩ := List.append_inj' htokens rfl
  obtain ⟨herrors, -⟩ := List.append_eq_nil_iff.mp herrors
  have hmunched := hss.append_newline hts (Stretch.content_ne_of_items hterminated)
  refine hmunched.accepts_iff.mpr ⟨last', hlast', ?_⟩
  rw [hjoined, Tokens.ofItems_append, htokens, herrors, hitems', List.append_assoc]
  rfl

end Acceptance

/-- Behind a source whose strings are terminated and a line break, the items of any text are yielded
    as in a source of its own, at later lines and bytes. -/
theorem readItems_append_newline (a b : String)
    (h : ∀ line, .error ⟨line, .unterminatedString⟩ ∉ readItems a) :
    ∃ items last, readItems a = items ++ [.ok last] ∧ last.isEnd ∧
      readItems (a ++ "\n" ++ b) =
        items ++ (readItems b).map (Item.behind (a.toList ++ ['\n'])) := by
  obtain ⟨ss, hss⟩ := Munched.exists_munched a.toList
  obtain ⟨ts, hts⟩ := Munched.exists_munched b.toList
  have hitems : readItems a = Stretch.items ⟨1, 0⟩ ss :=
    Reader.items_of_munched hss (Nat.lt_succ_self _)
  have hothers : readItems b = Stretch.items ⟨1, 0⟩ ts :=
    Reader.items_of_munched hts (Nat.lt_succ_self _)
  have hmunched := hss.append_newline hts (Stretch.content_ne_of_items (hitems ▸ h))
  have htext : (a ++ "\n" ++ b).toList = a.toList ++ '\n' :: b.toList := by simp
  rw [← htext] at hmunched
  have hjoined : readItems (a ++ "\n" ++ b) =
      Stretch.items ⟨1, 0⟩ (ss ++ ⟨['\n'], .ok none⟩ :: ts) :=
    Reader.items_of_munched hmunched (Nat.lt_succ_self _)
  obtain ⟨items, last, hfront, hlast, hall⟩ := hss.items_append_newline ⟨1, 0⟩ ts
  refine ⟨items, last, hitems.trans hfront, hlast, ?_⟩
  rw [hjoined, hall, Stretch.items_past, hothers]

/-- Two equals signs that a line break keeps apart, behind an unexpected character and in front of a
    string that is not terminated. -/
theorem readItems_append_newline_equals :
    (∀ line, .error ⟨line, .unterminatedString⟩ ∉ readItems "é=") ∧
      readItems ("é=" ++ "\n" ++ "=\"a") =
        [.error ⟨1, .unexpectedCharacter 'é'⟩, .ok ⟨.punct .equal, "=", 1, 2⟩,
          .ok ⟨.punct .equal, "=", 2, 4⟩, .error ⟨2, .unterminatedString⟩,
          .ok (.atEnd 2 7)] := by
  have hitems : readItems "é=" =
      [.error ⟨1, .unexpectedCharacter 'é'⟩, .ok ⟨.punct .equal, "=", 1, 2⟩,
        .ok (.atEnd 1 3)] := by cbv
  have hothers : readItems "=\"a" =
      [.ok ⟨.punct .equal, "=", 1, 0⟩, .error ⟨1, .unterminatedString⟩, .ok (.atEnd 1 3)] := by
    cbv
  have htext : "é=".toList ++ ['\n'] = ['é', '=', '\n'] := by decide +kernel
  have hterminated : ∀ line, .error ⟨line, .unterminatedString⟩ ∉ readItems "é=" := by
    simp [hitems]
  obtain ⟨items, last, hsplit, -, hjoined⟩ := readItems_append_newline "é=" "=\"a" hterminated
  have hends : [_, _] ++ [_] = items ++ [.ok last] := hitems.symm.trans hsplit
  obtain ⟨hfront, -⟩ := List.append_inj' hends rfl
  rw [htext, hothers, ← hfront] at hjoined
  exact ⟨hterminated, hjoined⟩

end Lox

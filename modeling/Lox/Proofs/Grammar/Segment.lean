import Lox.Proofs.Grammar.Parting

namespace Lox.Grammar

open Rule

variable {semicolon eof : Token} {rest rest' ts segment : List Token} {n n' : Nat}
  {nested : Rule (Stmt Unit)}

/-- Behind a semicolon, reading resumes at once. -/
theorem boundary_semicolon (hsemicolon : semicolon.isPunct .semicolon) (rest : List Token) :
    boundary semicolon rest = rest := by
  cases rest with
  | nil => rfl
  | cons t us => exact if_pos (by simp [hsemicolon])

/-- Plain tokens are skipped up to the semicolon and with it. -/
theorem boundary_append {previous : Token} (hsemicolon : semicolon.isPunct .semicolon)
    (hprevious : previous.isPunct .semicolon = false) (hts : ∀ t ∈ ts, t.isPlain) :
    boundary previous (ts ++ semicolon :: rest) = rest := by
  induction ts generalizing previous with
  | nil =>
    have hkind := Token.isPunct_iff.mp hsemicolon
    have hstay : ¬ (semicolon.isEnd || previous.isPunct .semicolon || semicolon.startsStatement)
        = true := by
      simp [Token.isEnd, Token.startsStatement, hkind, hprevious]
    rw [List.nil_append, boundary, if_neg hstay]
    exact boundary_semicolon hsemicolon rest
  | cons t us ih =>
    rw [List.forall_mem_cons] at hts
    obtain ⟨-, -, hpunct, hend, hstart⟩ := Token.isPlain_iff.mp hts.1
    rw [List.cons_append, boundary, if_neg (by simp [hend, hprevious, hstart])]
    exact ih hpunct hts.2

/-- Reading resumes right behind the semicolon, whatever token in front of it was the first that is
    skipped. -/
theorem skipToBoundary_append (hsemicolon : semicolon.isPunct .semicolon)
    (hfirst : ∀ t ∈ ts.head?, t.isEnd = false ∧ t.isPunct .semicolon = false)
    (hothers : ∀ t ∈ ts.tail, t.isPlain) : skipToBoundary (ts ++ semicolon :: rest) = rest := by
  cases ts with
  | nil =>
    have hend : ¬ semicolon.isEnd = true := by
      simp [Token.isEnd, Token.isPunct_iff.mp hsemicolon]
    rw [List.nil_append, skipToBoundary, if_neg hend]
    exact boundary_semicolon hsemicolon rest
  | cons t us =>
    obtain ⟨hend, hpunct⟩ := hfirst t rfl
    rw [List.cons_append, skipToBoundary, if_neg (by simp [hend])]
    exact boundary_append hsemicolon hpunct hothers

/-- A segment that leaves no tree when it is read alone, with an end behind it. It ends in its only
    semicolon and has in it nothing at which reading could resume. -/
structure Failing (eof : Token) (segment : List Token) : Prop where
  shape : ∃ lead plain semicolon, segment = lead ++ plain ++ [semicolon] ∧
    (lead = [] ∨ ∃ t : Token, lead = [t] ∧ t.leads) ∧ (∀ t ∈ plain, t.isPlain) ∧
    semicolon.isPunct .semicolon
  noElse : (front segment).isKeyword .else = false
  noTree : (program (segment ++ [eof])).statements = []

/-- What recovery makes of a rule that is given up in front of the semicolon of a segment. -/
theorem recovering_of_parted {r r' : Rule (Stmt Unit)} (hsemicolon : semicolon.isPunct .semicolon)
    (hts : ∀ left, left <:+ ts →
      (∀ t ∈ left.head?, t.isEnd = false ∧ t.isPunct .semicolon = false) ∧
        ∀ t ∈ left.tail, t.isPlain)
    (h : Parted semicolon rest rest' r r' ts) :
    (∃ errors, recovering r (ts ++ semicolon :: rest) = ⟨none, errors, rest⟩ ∧
      recovering r' (ts ++ semicolon :: rest') = ⟨none, errors, rest'⟩) ∨
    ∃ s errors, recovering r' (ts ++ semicolon :: rest') = ⟨some s, errors, rest'⟩ := by
  obtain ⟨errors, left, hleft, hr, hr'⟩ | ⟨s, errors, hr'⟩ := h
  · obtain ⟨hfirst, hothers⟩ := hts left hleft
    refine .inl ⟨errors, ?_, ?_⟩
    · simp only [recovering, hr, skipToBoundary_append hsemicolon hfirst hothers]
    · simp only [recovering, hr', skipToBoundary_append hsemicolon hfirst hothers]
  · refine .inr ⟨s, errors, ?_⟩
    simp only [recovering, hr']

/-- Declarations end where they are closed. -/
theorem declarations_of_closed {closed : Token → Bool}
    (hclosed : ((front ts).isEnd || closed (front ts)) = true) (n : Nat) :
    declarations nested closed n ts = ⟨some [], [], ts⟩ := by
  cases n with
  | zero => rfl
  | succ n => exact if_pos hclosed

/-- One declaration, with or without a tree, and those behind it. -/
theorem declarations_cons {closed : Token → Bool} {first : Option (Stmt Unit)}
    {errors errors' : List SyntaxError} {middle : List Token} {ss : List (Stmt Unit)}
    (hopen : ((front ts).isEnd || closed (front ts)) = false)
    (hfirst : nested ts = ⟨first, errors, middle⟩)
    (hothers : declarations nested closed n middle = ⟨some ss, errors', rest⟩) :
    declarations nested closed (n + 1) ts =
      ⟨some (first.toList ++ ss), errors ++ errors', rest⟩ := by
  have hstep : ¬ ((front ts).isEnd || closed (front ts)) = true := by simp [hopen]
  rw [declarations]
  simp only [if_neg hstep, hfirst, hothers, Option.map_some]

/-- Alone a segment is a program of at most one declaration. -/
theorem program_alone {result : Option (Stmt Unit)} {errors : List SyntaxError}
    (heof : eof.isEnd) (hfront : (front (segment ++ [eof])).isEnd = false)
    (h : declaration (segment ++ [eof]).length (segment ++ [eof]) = ⟨result, errors, [eof]⟩) :
    program (segment ++ [eof]) = ⟨result.toList, errors, [eof]⟩ := by
  obtain ⟨n, hn⟩ : ∃ n, (segment ++ [eof]).length = n + 1 := ⟨segment.length, by simp⟩
  have hend : declarations (declaration (n + 1)) (fun _ => false) n [eof] = ⟨some [], [], [eof]⟩ :=
    declarations_of_closed (by simp [front, heof]) n
  rw [hn] at h
  rw [program, hn, declarations_cons (by simp [hfront]) h hend]
  simp

/-- A declaration of one leading token and plain ones stops in front of the semicolon or takes
    it. -/
theorem parted_declaration {lead plain : List Token} (hsemicolon : semicolon.isPunct .semicolon)
    (hlead : lead = [] ∨ ∃ t : Token, lead = [t] ∧ t.leads) (hplain : ∀ t ∈ plain, t.isPlain)
    (helse : (front rest').isKeyword .else = false) (hn : (lead ++ plain).length < n + 1)
    (hn' : (lead ++ plain).length < n' + 1) (rest : List Token) :
    (∃ errors, declaration (n + 1) (lead ++ plain ++ semicolon :: rest) = ⟨none, errors, rest⟩ ∧
      declaration (n' + 1) (lead ++ plain ++ semicolon :: rest') = ⟨none, errors, rest'⟩) ∨
    ∃ s errors, declaration (n' + 1) (lead ++ plain ++ semicolon :: rest') =
      ⟨some s, errors, rest'⟩ := by
  have hskipped {t : Token} (ht : t.isPlain) : t.isEnd = false ∧ t.isPunct .semicolon = false := by
    obtain ⟨-, -, hpunct, hend, -⟩ := Token.isPlain_iff.mp ht
    exact ⟨hend, hpunct⟩
  have hsuffix {left : List Token} (hleft : left <:+ plain) :
      (∀ t ∈ left.head?, t.isEnd = false ∧ t.isPunct .semicolon = false) ∧
        ∀ t ∈ left.tail, t.isPlain := by
    have hwithin : ∀ t ∈ left, t.isPlain := fun t ht => hplain t (hleft.subset ht)
    exact ⟨fun t ht => hskipped (hwithin t (List.mem_of_mem_head? ht)),
      fun t ht => hwithin t (List.mem_of_mem_tail ht)⟩
  obtain rfl | ⟨t, rfl, ht⟩ := hlead
  · exact recovering_of_parted hsemicolon (fun left hleft => hsuffix hleft)
      (parted_bareDeclaration_of_plain hsemicolon hplain hn hn')
  · have hbound : plain.length < n := Nat.lt_of_succ_lt_succ hn
    have hbound' : plain.length < n' := Nat.lt_of_succ_lt_succ hn'
    refine recovering_of_parted hsemicolon (fun left hleft => ?_)
      (parted_bareDeclaration_of_leads hsemicolon ht hplain helse hbound hbound')
    obtain rfl | hleft := List.suffix_cons_iff.mp hleft
    · refine ⟨fun u hu => ?_, hplain⟩
      obtain rfl := Option.some.inj hu
      obtain ⟨hend, hpunct, -⟩ := Token.skipped_of_leads ht
      exact ⟨hend, hpunct⟩
    · exact hsuffix hleft

/-- No list of declarations stops in front of a failing segment. -/
theorem Failing.exists_first (h : Failing eof segment) :
    ∃ t us, segment = t :: us ∧ t.isEnd = false ∧ t.isPunct .rightBrace = false ∧
      t.isKeyword .else = false := by
  obtain ⟨⟨lead, plain, semicolon, rfl, hlead, hplain, hsemicolon⟩, helse, -⟩ := h
  obtain rfl | ⟨t, rfl, ht⟩ := hlead
  · cases plain with
    | nil =>
      exact ⟨semicolon, [], rfl, not_isEnd_of_isPunct hsemicolon,
        not_isPunct_of_semicolon hsemicolon (by decide), helse⟩
    | cons t us =>
      obtain ⟨-, hbrace, -, hend, -⟩ := Token.isPlain_iff.mp (hplain t List.mem_cons_self)
      exact ⟨t, us ++ [semicolon], rfl, hend, hbrace, helse⟩
  · obtain ⟨hend, -, hbrace⟩ := Token.skipped_of_leads ht
    exact ⟨t, plain ++ [semicolon], rfl, hend, hbrace, helse⟩

/-- Wherever a failing segment stands, it leaves no tree and the errors that it has alone, and
    reading goes on right behind it. -/
theorem Failing.declaration_eq (h : Failing eof segment) (heof : eof.isEnd)
    (hn : segment.length ≤ n) :
    declaration n (segment ++ rest) = ⟨none, (program (segment ++ [eof])).errors, rest⟩ := by
  obtain ⟨t, us, hsegment, hend, -⟩ := h.exists_first
  have hfront : (front (segment ++ [eof])).isEnd = false := by
    rw [hsegment]
    exact hend
  obtain ⟨⟨lead, plain, semicolon, rfl, hlead, hplain, hsemicolon⟩, -, hnoTree⟩ := h
  simp only [List.length_append, List.length_singleton] at hn
  obtain ⟨n, rfl⟩ : ∃ j, n = j + 1 := Nat.exists_eq_succ_of_ne_zero (by omega)
  obtain ⟨n', hn'⟩ : ∃ j, (lead ++ plain ++ [semicolon] ++ [eof]).length = j + 1 :=
    ⟨_, List.length_append⟩
  have hbound : (lead ++ plain).length < n + 1 := by
    rw [List.length_append]
    omega
  have hbound' : (lead ++ plain).length < n' + 1 := by
    rw [← hn']
    simp only [List.length_append, List.length_singleton]
    omega
  have helse : (front [eof]).isKeyword .else = false := by
    rw [← Bool.not_eq_true, front]
    intro helse
    rw [not_isEnd_of_isKeyword helse] at heof
    cases heof
  have happend (rest : List Token) : lead ++ plain ++ [semicolon] ++ rest =
      lead ++ plain ++ semicolon :: rest := by simp
  obtain ⟨errors, hhere, halone⟩ | ⟨s, errors, halone⟩ :=
    parted_declaration hsemicolon hlead hplain helse hbound hbound' rest
  all_goals
    rw [← happend, ← hn'] at halone
    have hprogram := program_alone heof hfront halone
  · rw [hprogram, happend, hhere]
  · rw [hprogram] at hnoTree
    cases hnoTree

end Lox.Grammar

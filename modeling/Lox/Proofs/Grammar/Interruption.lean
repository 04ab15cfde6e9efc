import Lox.Proofs.Grammar.Segment

/-!
Programs with failing segments in them. A segment may stand wherever a declaration may: at the top
level and in the body of any block or function. Such a program is read as if the segments were not
there, and what is reported is what the segments have to report when each is read alone.
-/

namespace Lox

namespace Rule

variable {α β : Type} {ts middle rest : List Token} {errors errors' : List SyntaxError} {a : α}
  {b : β} {r : Rule α} {next : α → Rule β}

/-- The rule takes the tokens in front of `rest`, finds `a` and reports these errors on the way. -/
def Finds (r : Rule α) (ts : List Token) (a : α) (errors : List SyntaxError) (rest : List Token) :
    Prop :=
  r ts = ⟨some a, errors, rest⟩

/-- What two rules in a row find is the errors of the first and then those of the second. -/
theorem Finds.bind (h : r.Finds ts a errors middle) (hnext : (next a).Finds middle b errors' rest) :
    (r >>= next).Finds ts b (errors ++ errors') rest := by
  unfold Finds at h hnext ⊢
  rw [bind_apply_of_some (a := a) (by rw [h]), h, hnext]

/-- Behind a clean reading, only the second rule reports. -/
theorem Reads.bind_finds (h : r.Reads ts a middle) (hnext : (next a).Finds middle b errors rest) :
    (r >>= next).Finds ts b errors rest :=
  Finds.bind h hnext

/-- In front of a clean reading, only the first rule reports. -/
theorem Finds.bind_reads (h : r.Finds ts a errors middle) (hnext : (next a).Reads middle b rest) :
    (r >>= next).Finds ts b errors rest := by
  have hbind := Finds.bind h hnext
  rwa [List.append_nil] at hbind

end Rule

namespace Grammar

open Rule

/-- What stands at a place for a declaration: one of them, without and with the segments inside it,
    or a segment. -/
inductive Piece
  | declaration (clean whole : List Token) (tree : Stmt Unit) (dangling : Bool)
      (segments : List (List Token))
  | segment (tokens : List Token)

namespace Piece

/-- The tokens without the segments. -/
def clean : Piece → List Token
  | declaration clean _ _ _ _ => clean
  | segment _ => []

/-- The tokens with the segments. -/
def whole : Piece → List Token
  | declaration _ whole _ _ _ => whole
  | segment tokens => tokens

def trees : Piece → List (Stmt Unit)
  | declaration _ _ tree _ _ => [tree]
  | segment _ => []

def segments : Piece → List (List Token)
  | declaration _ _ _ _ segments => segments
  | segment tokens => [tokens]

end Piece

/-- The first tokens are a declaration or a statement, the second the same with these failing
    segments at places for declarations inside it, from the first to the last. -/
inductive Category.Interrupted (eof : Token) :
    Category → List Token → List Token → Stmt Unit → Bool → List (List Token) → Prop
  | none {c : Category} {ts : List Token} {s : Stmt Unit} {dangling : Bool}
      (h : c.Derives true ts s dangling) : Interrupted eof c ts ts s dangling []
  | statement {ts us : List Token} {s : Stmt Unit} {dangling : Bool}
      {segments : List (List Token)} (h : Interrupted eof .statement ts us s dangling segments) :
      Interrupted eof .declaration ts us s dangling segments
  | function {keyword name openParen closeParen openBrace closeBrace : Token}
      {params ts : List Token} {pieces : List Piece} (hkeyword : keyword.isKeyword .fun)
      (hname : name.isIdentifier) (hopen : openParen.isPunct .leftParen)
      (hparams : ∀ p ∈ params, p.isIdentifier) (hlimit : params.length ≤ maxArguments)
      (hseparated : Separated (params.map fun p => [p]) ts)
      (hclose : closeParen.isPunct .rightParen) (hopenBrace : openBrace.isPunct .leftBrace)
      (hdeclarations : ∀ clean whole s dangling segments,
        .declaration clean whole s dangling segments ∈ pieces →
          Interrupted eof .declaration clean whole s dangling segments)
      (hsegments : ∀ tokens, .segment tokens ∈ pieces → Failing eof tokens)
      (hcloseBrace : closeBrace.isPunct .rightBrace) :
      Interrupted eof .declaration
        (keyword :: name :: openParen :: (ts ++ closeParen :: openBrace ::
          (pieces.flatMap Piece.clean ++ [closeBrace])))
        (keyword :: name :: openParen :: (ts ++ closeParen :: openBrace ::
          (pieces.flatMap Piece.whole ++ [closeBrace])))
        (.function name params (pieces.flatMap Piece.trees)) false
        (pieces.flatMap Piece.segments)
  | block {openBrace closeBrace : Token} {pieces : List Piece}
      (hopen : openBrace.isPunct .leftBrace)
      (hdeclarations : ∀ clean whole s dangling segments,
        .declaration clean whole s dangling segments ∈ pieces →
          Interrupted eof .declaration clean whole s dangling segments)
      (hsegments : ∀ tokens, .segment tokens ∈ pieces → Failing eof tokens)
      (hclose : closeBrace.isPunct .rightBrace) :
      Interrupted eof .statement (openBrace :: (pieces.flatMap Piece.clean ++ [closeBrace]))
        (openBrace :: (pieces.flatMap Piece.whole ++ [closeBrace]))
        (.block (pieces.flatMap Piece.trees)) false (pieces.flatMap Piece.segments)
  | ifThen {keyword openParen closeParen : Token} {ts us us' : List Token} {e : Expr Unit}
      {s : Stmt Unit} {dangling : Bool} {segments : List (List Token)}
      (hkeyword : keyword.isKeyword .if) (hopen : openParen.isPunct .leftParen)
      (hcondition : Phrase.expression.Derives ts e) (hclose : closeParen.isPunct .rightParen)
      (hthen : Interrupted eof .statement us us' s dangling segments) :
      Interrupted eof .statement (keyword :: openParen :: (ts ++ closeParen :: us))
        (keyword :: openParen :: (ts ++ closeParen :: us')) (.if e s none) true segments
  | ifElse {keyword openParen closeParen keywordElse : Token} {ts us us' vs vs' : List Token}
      {e : Expr Unit} {s s' : Stmt Unit} {dangling : Bool} {segments segments' : List (List Token)}
      (hkeyword : keyword.isKeyword .if) (hopen : openParen.isPunct .leftParen)
      (hcondition : Phrase.expression.Derives ts e) (hclose : closeParen.isPunct .rightParen)
      (hthen : Interrupted eof .statement us us' s false segments)
      (helse : keywordElse.isKeyword .else)
      (hother : Interrupted eof .statement vs vs' s' dangling segments') :
      Interrupted eof .statement
        (keyword :: openParen :: (ts ++ closeParen :: (us ++ keywordElse :: vs)))
        (keyword :: openParen :: (ts ++ closeParen :: (us' ++ keywordElse :: vs')))
        (.if e s (some s')) dangling (segments ++ segments')
  | while {keyword openParen closeParen : Token} {ts us us' : List Token} {e : Expr Unit}
      {s : Stmt Unit} {dangling : Bool} {segments : List (List Token)}
      (hkeyword : keyword.isKeyword .while) (hopen : openParen.isPunct .leftParen)
      (hcondition : Phrase.expression.Derives ts e) (hclose : closeParen.isPunct .rightParen)
      (hbody : Interrupted eof .statement us us' s dangling segments) :
      Interrupted eof .statement (keyword :: openParen :: (ts ++ closeParen :: us))
        (keyword :: openParen :: (ts ++ closeParen :: us')) (.while e s) dangling segments
  | for {keyword openParen semicolon closeParen : Token} {first ts us vs vs' : List Token}
      {initializer : Option (Stmt Unit)} {condition increment : Option (Expr Unit)}
      {s : Stmt Unit} {dangling : Bool} {segments : List (List Token)}
      (hkeyword : keyword.isKeyword .for)
      (hopen : openParen.isPunct .leftParen) (hfirst : DerivesInitializer first initializer)
      (hcondition : DerivesOptional ts condition) (hsemicolon : semicolon.isPunct .semicolon)
      (hincrement : DerivesOptional us increment) (hclose : closeParen.isPunct .rightParen)
      (hbody : Interrupted eof .statement vs vs' s dangling segments) :
      Interrupted eof .statement
        (keyword :: openParen :: (first ++ (ts ++ semicolon :: (us ++ closeParen :: vs))))
        (keyword :: openParen :: (first ++ (ts ++ semicolon :: (us ++ closeParen :: vs'))))
        (forLoop initializer condition increment s) dangling segments

/-- The first tokens are a program, the second the same with these failing segments in it. -/
def InterruptedProgram (eof : Token) (ts us : List Token) (program : List (Stmt Unit))
    (segments : List (List Token)) : Prop :=
  ∃ pieces : List Piece, ts = pieces.flatMap Piece.clean ∧ us = pieces.flatMap Piece.whole ∧
    program = pieces.flatMap Piece.trees ∧ segments = pieces.flatMap Piece.segments ∧
    (∀ clean whole s dangling segments, .declaration clean whole s dangling segments ∈ pieces →
      Category.declaration.Interrupted eof clean whole s dangling segments) ∧
    ∀ tokens, .segment tokens ∈ pieces → Failing eof tokens

/-- What the segments have to report, each read alone. -/
def errorsAlone (eof : Token) (segments : List (List Token)) : List SyntaxError :=
  segments.flatMap fun segment => (program (segment ++ [eof])).errors

variable {eof last : Token} {ts us rest : List Token} {s : Stmt Unit} {ss : List (Stmt Unit)}
  {dangling : Bool} {segments : List (List Token)} {n : Nat}

/-- The declarations among the pieces, without the segments. -/
theorem exists_clean_parts {pieces : List Piece}
    (h : ∀ clean whole s dangling segments,
      .declaration clean whole s dangling segments ∈ pieces →
        Category.declaration.Derives true clean s dangling) :
    ∃ parts : List Part, parts.flatMap Part.tokens = pieces.flatMap Piece.clean ∧
      parts.map Part.tree = pieces.flatMap Piece.trees ∧
      ∀ part ∈ parts, Category.declaration.Derives true part.tokens part.tree part.dangling := by
  induction pieces with
  | nil => exact ⟨[], rfl, rfl, by simp⟩
  | cons piece pieces ih =>
    obtain ⟨parts, htokens, htrees, hparts⟩ := ih fun clean whole s dangling segments hpiece =>
      h clean whole s dangling segments (List.mem_cons_of_mem _ hpiece)
    cases piece with
    | segment tokens => exact ⟨parts, htokens, htrees, hparts⟩
    | declaration clean whole s dangling segments =>
      have hfirst := h clean whole s dangling segments List.mem_cons_self
      refine ⟨⟨clean, s, dangling⟩ :: parts, ?_, ?_, List.forall_mem_cons.mpr ⟨hfirst, hparts⟩⟩
      · rw [List.flatMap_cons, List.flatMap_cons, htokens]
        rfl
      · rw [List.map_cons, List.flatMap_cons, htrees]
        rfl

/-- Without the segments there is a sentence of the grammar. -/
theorem Category.Interrupted.derives {c : Category}
    (h : c.Interrupted eof ts us s dangling segments) : c.Derives true ts s dangling := by
  induction h with
  | none h => exact h
  | statement _ ih => exact .statement ih
  | function hkeyword hname hopen hparams hlimit hseparated hclose hopenBrace _ _ hcloseBrace ih =>
    obtain ⟨parts, htokens, htrees, hparts⟩ := exists_clean_parts ih
    rw [← htokens, ← htrees]
    exact .function hkeyword hname hopen hparams hlimit hseparated hclose hopenBrace hparts
      hcloseBrace
  | block hopen _ _ hclose ih =>
    obtain ⟨parts, htokens, htrees, hparts⟩ := exists_clean_parts ih
    rw [← htokens, ← htrees]
    exact .block hopen hparts hclose
  | ifThen hkeyword hopen hcondition hclose _ ih =>
    exact .ifThen hkeyword hopen hcondition hclose ih
  | ifElse hkeyword hopen hcondition hclose _ helse _ ihthen ihother =>
    exact .ifElse hkeyword hopen hcondition hclose ihthen (fun _ => rfl) helse ihother
  | «while» hkeyword hopen hcondition hclose _ ih =>
    exact .while hkeyword hopen hcondition hclose ih
  | «for» hkeyword hopen hfirst hcondition hsemicolon hincrement hclose _ ih =>
    exact .for hkeyword hopen hfirst hcondition hsemicolon hincrement hclose ih

/-- Without its failing segments, an interrupted program is a sentence of the grammar. -/
theorem InterruptedProgram.derives (h : InterruptedProgram eof ts us ss segments) :
    DerivesProgram true ts ss := by
  obtain ⟨pieces, rfl, -, rfl, -, hdeclarations, -⟩ := h
  obtain ⟨parts, htokens, htrees, hparts⟩ := exists_clean_parts
    fun clean whole s dangling segments hpiece =>
      (hdeclarations clean whole s dangling segments hpiece).derives
  exact ⟨parts, htokens.symm, htrees.symm, hparts⟩

/-- The first token is that of a sentence of the grammar, with the segments as without. -/
theorem Category.Interrupted.exists_first {c : Category}
    (h : c.Interrupted eof ts us s dangling segments) :
    ∃ t vs, us = t :: vs ∧ startsDeclaration t ∧ (c = .statement → startsStatement t) := by
  have hstatement {t : Token} (ht : startsStatement t) (us : List Token) :
      ∃ t' us', t :: us = t' :: us' ∧ startsDeclaration t' ∧
        (Category.statement = .statement → startsStatement t') :=
    ⟨t, us, rfl, by simp [startsDeclaration, ht], fun _ => ht⟩
  induction h with
  | none h => exact h.exists_first
  | statement _ ih =>
    obtain ⟨t, vs, rfl, hstart, -⟩ := ih
    exact ⟨t, vs, rfl, hstart, by simp⟩
  | function hkeyword => exact ⟨_, _, rfl, by simp [startsDeclaration, hkeyword], by simp⟩
  | block hopen => exact hstatement (by simp [startsStatement, Token.isPunct_iff.mp hopen]) _
  | ifThen hkeyword | ifElse hkeyword | «while» hkeyword | «for» hkeyword =>
    exact hstatement (by simp [startsStatement, Token.isKeyword_iff.mp hkeyword]) _

/-- The errors of segments, each read alone, are collected in their order. -/
theorem errorsAlone_append (eof : Token) (segments segments' : List (List Token)) :
    errorsAlone eof (segments ++ segments') =
      errorsAlone eof segments ++ errorsAlone eof segments' :=
  List.flatMap_append

/-- The rule reads these tokens as this tree, wherever no `else` behind them belongs to it, and
    reports what the segments in them report alone. -/
def Category.Found (eof : Token) (c : Category) (us : List Token) (s : Stmt Unit) (dangling : Bool)
    (segments : List (List Token)) : Prop :=
  ∀ ⦃n rest⦄, (us ++ rest).length ≤ n → (dangling = true → (front rest).isKeyword .else = false) →
    (c.rule n).Finds (us ++ rest) s (errorsAlone eof segments) rest

/-- No list of declarations stops in front of a piece, and no statement goes on there. -/
theorem Piece.exists_first {pieces : List Piece} {piece : Piece}
    (hdeclarations : ∀ clean whole s dangling segments,
      .declaration clean whole s dangling segments ∈ pieces →
        Category.declaration.Interrupted eof clean whole s dangling segments)
    (hsegments : ∀ tokens, .segment tokens ∈ pieces → Failing eof tokens)
    (hpiece : piece ∈ pieces) :
    ∃ t vs, piece.whole = t :: vs ∧ t.isEnd = false ∧ t.isPunct .rightBrace = false ∧
      t.isKeyword .else = false := by
  cases piece with
  | segment tokens => exact (hsegments tokens hpiece).exists_first
  | declaration clean whole s dangling segments =>
    obtain ⟨t, vs, rfl, hstart, -⟩ :=
      (hdeclarations clean whole s dangling segments hpiece).exists_first
    have hopen := not_closed_of_startsDeclaration hstart
    simp only [Bool.or_eq_false_iff] at hopen
    exact ⟨t, vs, rfl, hopen.1.1, hopen.1.2, hopen.2⟩

/-- Interrupted declarations are found with their trees and with the errors of the segments among
    them. -/
theorem declarations_found {closed : Token → Bool} {pieces : List Piece} {m : Nat}
    (heof : eof.isEnd)
    (hdeclarations : ∀ clean whole s dangling segments,
      .declaration clean whole s dangling segments ∈ pieces →
        Category.declaration.Found eof whole s dangling segments)
    (hsegments : ∀ tokens, .segment tokens ∈ pieces → Failing eof tokens)
    (hfirst : ∀ piece ∈ pieces, ∃ t vs, piece.whole = t :: vs ∧
      (t.isEnd || closed t) = false ∧ t.isKeyword .else = false)
    (hstop : ((front rest).isEnd || closed (front rest)) = true)
    (hrest : (front rest).isKeyword .else = false)
    (hm : (pieces.flatMap Piece.whole ++ rest).length ≤ m)
    (hn : (pieces.flatMap Piece.whole).length ≤ n) :
    (declarations (declaration m) closed n).Finds (pieces.flatMap Piece.whole ++ rest)
      (pieces.flatMap Piece.trees) (errorsAlone eof (pieces.flatMap Piece.segments)) rest := by
  induction pieces generalizing n with
  | nil => exact declarations_of_closed hstop n
  | cons piece pieces ih =>
    obtain ⟨t, vs, htokens, hopen, -⟩ := hfirst piece List.mem_cons_self
    simp only [List.flatMap_cons, List.append_assoc, List.length_append, errorsAlone_append]
      at hm hn ⊢
    have hpos : 0 < piece.whole.length := by simp [htokens]
    obtain ⟨n, rfl⟩ : ∃ k, n = k + 1 := Nat.exists_eq_succ_of_ne_zero (by omega)
    have hothers : (declarations (declaration m) closed n).Finds
        (pieces.flatMap Piece.whole ++ rest) (pieces.flatMap Piece.trees)
        (errorsAlone eof (pieces.flatMap Piece.segments)) rest := by
      refine ih (fun clean whole s dangling segments hpiece => ?_) (fun tokens hpiece => ?_)
        (fun piece hpiece => ?_) ?_ (by omega)
      · exact hdeclarations clean whole s dangling segments (List.mem_cons_of_mem _ hpiece)
      · exact hsegments tokens (List.mem_cons_of_mem _ hpiece)
      · exact hfirst piece (List.mem_cons_of_mem _ hpiece)
      · rw [List.length_append]
        omega
    have hfront : ((front (piece.whole ++ (pieces.flatMap Piece.whole ++ rest))).isEnd ||
        closed (front (piece.whole ++ (pieces.flatMap Piece.whole ++ rest)))) = false := by
      rw [htokens]
      exact hopen
    suffices hpiece : declaration m (piece.whole ++ (pieces.flatMap Piece.whole ++ rest)) =
        ⟨piece.trees.head?, errorsAlone eof piece.segments, pieces.flatMap Piece.whole ++ rest⟩ by
      have hcons := declarations_cons hfront hpiece hothers
      cases piece <;> exact hcons
    cases piece with
    | segment tokens =>
      have hfailing := hsegments tokens List.mem_cons_self
      have hlength : tokens.length ≤ m := by
        simp only [Piece.whole] at hm
        omega
      have halone : errorsAlone eof [tokens] = (program (tokens ++ [eof])).errors :=
        List.flatMap_singleton _ _
      rw [Piece.segments, halone]
      exact hfailing.declaration_eq heof hlength
    | declaration clean whole s dangling segments =>
      refine hdeclarations clean whole s dangling segments List.mem_cons_self ?_ fun _ => ?_
      · simpa only [Piece.whole, List.length_append] using hm
      -- neither the next piece nor what follows the last one begins with an `else`
      · cases pieces with
        | nil => exact hrest
        | cons other pieces =>
          obtain ⟨t', vs', htokens', -, helse⟩ :=
            hfirst other (List.mem_cons_of_mem _ List.mem_cons_self)
          rw [List.flatMap_cons, htokens']
          exact helse

/-- An interrupted block is found with the errors of the segments in it. -/
theorem block_found {pieces : List Piece} {closeBrace : Token} {m : Nat} (heof : eof.isEnd)
    (hinterrupted : ∀ clean whole s dangling segments,
      .declaration clean whole s dangling segments ∈ pieces →
        Category.declaration.Interrupted eof clean whole s dangling segments)
    (hdeclarations : ∀ clean whole s dangling segments,
      .declaration clean whole s dangling segments ∈ pieces →
        Category.declaration.Found eof whole s dangling segments)
    (hsegments : ∀ tokens, .segment tokens ∈ pieces → Failing eof tokens)
    (hclose : closeBrace.isPunct .rightBrace)
    (hm : (pieces.flatMap Piece.whole ++ closeBrace :: rest).length ≤ m)
    (hn : (pieces.flatMap Piece.whole ++ closeBrace :: rest).length ≤ n) :
    (block (declaration m) n).Finds (pieces.flatMap Piece.whole ++ closeBrace :: rest)
      (pieces.flatMap Piece.trees) (errorsAlone eof (pieces.flatMap Piece.segments)) rest := by
  have hbody : (declarations (declaration m) (·.isPunct .rightBrace) n).Finds
      (pieces.flatMap Piece.whole ++ closeBrace :: rest) (pieces.flatMap Piece.trees)
      (errorsAlone eof (pieces.flatMap Piece.segments)) (closeBrace :: rest) := by
    refine declarations_found heof hdeclarations hsegments (fun piece hpiece => ?_) ?_ ?_ hm ?_
    · obtain ⟨t, vs, htokens, hend, hbrace, helse⟩ :=
        Piece.exists_first hinterrupted hsegments hpiece
      exact ⟨t, vs, htokens, by simp [hend, hbrace], helse⟩
    · simp [front, hclose]
    · simp [front, Token.isKeyword, Token.isPunct_iff.mp hclose]
    · rw [List.length_append] at hn
      omega
  exact hbody.bind_reads (reads_bind_iff.mpr
    ⟨closeBrace, rest, reads_expect_iff.mpr ⟨rfl, hclose⟩, reads_pure_iff.mpr ⟨rfl, rfl⟩⟩)

/-- The rule behind a keyword reads what the rule for statements reads with it. -/
theorem statement_found_of_keyword {keyword : Token}
    {r : Nat → Rule (Stmt Unit)}
    (hrule : ∀ n us, statement (n + 1) (keyword :: us) = r n us)
    (h : ∀ ⦃n rest⦄, (us ++ rest).length ≤ n →
      (dangling = true → (front rest).isKeyword .else = false) →
      (r n).Finds (us ++ rest) s (errorsAlone eof segments) rest) :
    Category.statement.Found eof (keyword :: us) s dangling segments := by
  intro n rest hn hrest
  simp only [List.cons_append, List.length_cons] at hn ⊢
  obtain ⟨n, rfl⟩ : ∃ m, n = m + 1 := Nat.exists_eq_succ_of_ne_zero (by omega)
  have hfinds := h (Nat.le_of_succ_le_succ hn) hrest
  unfold Finds at hfinds ⊢
  exact (hrule n _).trans hfinds

/-- A condition in parentheses, and what follows it. -/
theorem condition_finds {α : Type} {openParen closeParen : Token} {e : Expr Unit} {a : α}
    {errors : List SyntaxError} {next : Expr Unit → Rule α} (slot slot' : Slot)
    (hopen : openParen.isPunct .leftParen) (hcondition : Phrase.expression.Derives ts e)
    (hclose : closeParen.isPunct .rightParen) (hn : (ts ++ closeParen :: us).length ≤ n)
    (hnext : (next e).Finds us a errors rest) :
    (do
      let _ ← expect (·.isPunct .leftParen) slot
      let condition ← expression n
      let _ ← expect (·.isPunct .rightParen) slot'
      next condition : Rule α).Finds (openParen :: (ts ++ closeParen :: us)) a errors rest := by
  have hexpression := expression_complete hcondition hn (strength_of_rightParen hclose)
  refine Reads.bind_finds (reads_expect_iff.mpr ⟨rfl, hopen⟩) ?_
  exact hexpression.bind_finds (Reads.bind_finds (reads_expect_iff.mpr ⟨rfl, hclose⟩) hnext)

/-- A conditional whose branch is interrupted is found with the errors of the branch. -/
theorem ifThen_found {keyword openParen closeParen : Token} {e : Expr Unit}
    (hkeyword : keyword.isKeyword .if) (hopen : openParen.isPunct .leftParen)
    (hcondition : Phrase.expression.Derives ts e) (hclose : closeParen.isPunct .rightParen)
    (hthen : Category.statement.Found eof us s dangling segments) :
    Category.statement.Found eof (keyword :: openParen :: (ts ++ closeParen :: us)) (.if e s none)
      true segments := by
  refine statement_found_of_keyword (r := fun n => ifStatement (statement n) (n + 1))
    (fun n vs => ?_) fun n rest hn hrest => ?_
  · rw [statement, anyStatement_apply]
    simp only [front, Token.isKeyword_iff.mp hkeyword, take_seqRight_apply]
  simp only [List.cons_append, List.append_assoc, List.length_cons, List.length_append] at hn ⊢
  have hbranch : (statement n).Finds (us ++ rest) s (errorsAlone eof segments) rest := by
    refine hthen ?_ fun _ => hrest rfl
    rw [List.length_append]
    omega
  have hnone : (accept? (·.isKeyword .else)).Reads rest none rest :=
    reads_accept?_none_iff.mpr ⟨rfl, forall_head?_of_front (hrest rfl)⟩
  refine condition_finds _ _ hopen hcondition hclose ?_ (hbranch.bind_reads (reads_bind_iff.mpr
    ⟨none, rest, hnone, reads_pure_iff.mpr ⟨rfl, rfl⟩⟩))
  simp only [List.length_cons, List.length_append]
  omega

/-- With both branches interrupted, the errors of the first come before those of the second. -/
theorem ifElse_found {keyword openParen closeParen keywordElse : Token} {us' : List Token}
    {e : Expr Unit} {s' : Stmt Unit} {segments' : List (List Token)}
    (hkeyword : keyword.isKeyword .if) (hopen : openParen.isPunct .leftParen)
    (hcondition : Phrase.expression.Derives ts e) (hclose : closeParen.isPunct .rightParen)
    (hthen : Category.statement.Found eof us s false segments)
    (helse : keywordElse.isKeyword .else)
    (hother : Category.statement.Found eof us' s' dangling segments') :
    Category.statement.Found eof
      (keyword :: openParen :: (ts ++ closeParen :: (us ++ keywordElse :: us')))
      (.if e s (some s')) dangling (segments ++ segments') := by
  refine statement_found_of_keyword (r := fun n => ifStatement (statement n) (n + 1))
    (fun n vs => ?_) fun n rest hn hrest => ?_
  · rw [statement, anyStatement_apply]
    simp only [front, Token.isKeyword_iff.mp hkeyword, take_seqRight_apply]
  simp only [List.cons_append, List.append_assoc, List.length_cons, List.length_append] at hn ⊢
  have hbranch : (statement n).Finds (us ++ keywordElse :: (us' ++ rest)) s
      (errorsAlone eof segments) (keywordElse :: (us' ++ rest)) := by
    refine hthen ?_ (by simp)
    simp only [List.length_cons, List.length_append]
    omega
  have hbranch' : (statement n).Finds (us' ++ rest) s' (errorsAlone eof segments') rest := by
    refine hother ?_ hrest
    rw [List.length_append]
    omega
  have hsome : (accept? (·.isKeyword .else)).Reads (keywordElse :: (us' ++ rest))
      (some keywordElse) (us' ++ rest) := reads_accept?_some_iff.mpr ⟨rfl, helse⟩
  rw [errorsAlone_append]
  refine condition_finds _ _ hopen hcondition hclose ?_ (hbranch.bind
    (hsome.bind_finds (hbranch'.bind_reads (reads_pure_iff.mpr ⟨rfl, rfl⟩))))
  simp only [List.length_cons, List.length_append]
  omega

/-- A loop whose body is interrupted is found with the errors of the body. -/
theorem while_found {keyword openParen closeParen : Token} {e : Expr Unit}
    (hkeyword : keyword.isKeyword .while) (hopen : openParen.isPunct .leftParen)
    (hcondition : Phrase.expression.Derives ts e) (hclose : closeParen.isPunct .rightParen)
    (hbody : Category.statement.Found eof us s dangling segments) :
    Category.statement.Found eof (keyword :: openParen :: (ts ++ closeParen :: us)) (.while e s)
      dangling segments := by
  refine statement_found_of_keyword (r := fun n => whileStatement (statement n) (n + 1))
    (fun n vs => ?_) fun n rest hn hrest => ?_
  · rw [statement, anyStatement_apply]
    simp only [front, Token.isKeyword_iff.mp hkeyword, take_seqRight_apply]
  simp only [List.cons_append, List.append_assoc, List.length_cons, List.length_append] at hn ⊢
  have hinside : (statement n).Finds (us ++ rest) s (errorsAlone eof segments) rest := by
    refine hbody ?_ hrest
    rw [List.length_append]
    omega
  refine condition_finds _ _ hopen hcondition hclose ?_
    (hinside.bind_reads (reads_pure_iff.mpr ⟨rfl, rfl⟩))
  simp only [List.length_cons, List.length_append]
  omega

/-- The rule for a loop in front of its body: whatever the body has to report is all there is. -/
theorem forStatement_finds {inner : Rule (Stmt Unit)} {openParen semicolon closeParen : Token}
    {initializer : Option (Stmt Unit)} {condition increment : Option (Expr Unit)}
    {vs ws xs : List Token} {errors : List SyntaxError} (hopen : openParen.isPunct .leftParen)
    (hfirst : ReadsInitializer n us initializer vs)
    (hcondition : (optionalExpression n .semicolon).Reads vs condition (semicolon :: ws))
    (hsemicolon : semicolon.isPunct .semicolon)
    (hincrement : (optionalExpression n .rightParen).Reads ws increment (closeParen :: xs))
    (hclose : closeParen.isPunct .rightParen) (hbody : inner.Finds xs s errors rest) :
    (forStatement inner n).Finds (openParen :: us) (forLoop initializer condition increment s)
      errors rest := by
  rw [forStatement_eq]
  refine Reads.bind_finds (reads_expect_iff.mpr ⟨rfl, hopen⟩) ?_
  refine Reads.bind_finds (reads_forInitializer_iff.mpr hfirst) ?_
  refine hcondition.bind_finds (Reads.bind_finds (reads_expect_iff.mpr ⟨rfl, hsemicolon⟩) ?_)
  refine hincrement.bind_finds (Reads.bind_finds (reads_expect_iff.mpr ⟨rfl, hclose⟩) ?_)
  exact hbody.bind_reads (reads_pure_iff.mpr ⟨rfl, rfl⟩)

/-- A loop with clauses whose body is interrupted is found with the errors of the body. -/
theorem for_found {keyword openParen semicolon closeParen : Token} {first ts us vs : List Token}
    {initializer : Option (Stmt Unit)} {condition increment : Option (Expr Unit)}
    (hkeyword : keyword.isKeyword .for) (hopen : openParen.isPunct .leftParen)
    (hfirst : DerivesInitializer first initializer) (hcondition : DerivesOptional ts condition)
    (hsemicolon : semicolon.isPunct .semicolon) (hincrement : DerivesOptional us increment)
    (hclose : closeParen.isPunct .rightParen)
    (hbody : Category.statement.Found eof vs s dangling segments) :
    Category.statement.Found eof
      (keyword :: openParen :: (first ++ (ts ++ semicolon :: (us ++ closeParen :: vs))))
      (forLoop initializer condition increment s) dangling segments := by
  refine statement_found_of_keyword (r := fun n => forStatement (statement n) (n + 1))
    (fun n vs => ?_) fun n rest hn hrest => ?_
  · rw [statement, anyStatement_apply]
    simp only [front, Token.isKeyword_iff.mp hkeyword, take_seqRight_apply]
  simp only [List.cons_append, List.append_assoc, List.length_cons, List.length_append] at hn ⊢
  refine forStatement_finds hopen (initializer_complete hfirst ?_)
    (optionalExpression_complete hcondition hsemicolon (.inl rfl) ?_) hsemicolon
    (optionalExpression_complete hincrement hclose (.inr rfl) ?_) hclose (hbody ?_ hrest)
  all_goals
    simp only [List.length_cons, List.length_append]
    omega

/-- There is nothing to recover from where a tree is found. -/
theorem recovering_finds {r : Rule (Stmt Unit)} {errors : List SyntaxError}
    (h : r.Finds ts s errors rest) : (recovering r).Finds ts s errors rest := by
  unfold Finds at h ⊢
  rw [recovering]
  simp only [h]

/-- A function whose body is interrupted is found with the errors of the body. -/
theorem function_found {keyword name openParen closeParen openBrace closeBrace : Token}
    {params : List Token} {pieces : List Piece} (heof : eof.isEnd)
    (hkeyword : keyword.isKeyword .fun) (hname : name.isIdentifier)
    (hopen : openParen.isPunct .leftParen) (hparams : ∀ p ∈ params, p.isIdentifier)
    (hlimit : params.length ≤ maxArguments) (hseparated : Separated (params.map fun p => [p]) ts)
    (hclose : closeParen.isPunct .rightParen) (hopenBrace : openBrace.isPunct .leftBrace)
    (hinterrupted : ∀ clean whole s dangling segments,
      .declaration clean whole s dangling segments ∈ pieces →
        Category.declaration.Interrupted eof clean whole s dangling segments)
    (hdeclarations : ∀ clean whole s dangling segments,
      .declaration clean whole s dangling segments ∈ pieces →
        Category.declaration.Found eof whole s dangling segments)
    (hsegments : ∀ tokens, .segment tokens ∈ pieces → Failing eof tokens)
    (hcloseBrace : closeBrace.isPunct .rightBrace) :
    Category.declaration.Found eof
      (keyword :: name :: openParen :: (ts ++ closeParen :: openBrace ::
        (pieces.flatMap Piece.whole ++ [closeBrace])))
      (.function name params (pieces.flatMap Piece.trees)) false
      (pieces.flatMap Piece.segments) := by
  intro n rest hn _
  simp only [List.cons_append, List.append_assoc, List.nil_append, List.length_cons,
    List.length_append] at hn ⊢
  obtain ⟨n, rfl⟩ : ∃ m, n = m + 1 := Nat.exists_eq_succ_of_ne_zero (by omega)
  have hbody : (block (declaration n) (n + 1)).Finds
      (pieces.flatMap Piece.whole ++ closeBrace :: rest) (pieces.flatMap Piece.trees)
      (errorsAlone eof (pieces.flatMap Piece.segments)) rest := by
    refine block_found heof hinterrupted hdeclarations hsegments hcloseBrace ?_ ?_
    all_goals
      simp only [List.length_cons, List.length_append]
      omega
  have hend : (do
      let _ ← expect (·.isPunct .rightParen) .closeParameters
      let _ ← expect (·.isPunct .leftBrace) .openBody
      let body ← block (declaration n) (n + 1)
      pure (.function name params body) : Rule (Stmt Unit)).Finds
        (closeParen :: openBrace :: (pieces.flatMap Piece.whole ++ closeBrace :: rest))
        (.function name params (pieces.flatMap Piece.trees))
        (errorsAlone eof (pieces.flatMap Piece.segments)) rest := by
    refine Reads.bind_finds (reads_expect_iff.mpr ⟨rfl, hclose⟩) ?_
    refine Reads.bind_finds (reads_expect_iff.mpr ⟨rfl, hopenBrace⟩) ?_
    exact hbody.bind_reads (reads_pure_iff.mpr ⟨rfl, rfl⟩)
  have hfunction : (function (declaration n) (n + 1)).Finds
      (name :: openParen :: (ts ++ closeParen :: openBrace ::
        (pieces.flatMap Piece.whole ++ closeBrace :: rest)))
      (.function name params (pieces.flatMap Piece.trees))
      (errorsAlone eof (pieces.flatMap Piece.segments)) rest := by
    refine Reads.bind_finds (reads_expect_iff.mpr ⟨rfl, hname⟩) ?_
    refine Reads.bind_finds (reads_expect_iff.mpr ⟨rfl, hopen⟩) ?_
    refine Reads.bind_finds (reads_peek_iff.mpr ⟨rfl, rfl⟩) ?_
    cases params with
    | nil =>
      cases hseparated
      simp only [List.nil_append, front, hclose, if_true]
      exact Reads.bind_finds (reads_pure_iff.mpr ⟨rfl, rfl⟩) hend
    | cons p params =>
      obtain ⟨vs, rfl⟩ := hseparated.exists_first
      have hfront : p.isPunct .rightParen = false := by
        simp [Token.isPunct, Token.isIdentifier_iff.mp (hparams p List.mem_cons_self)]
      simp only [List.cons_append, front, hfront, Bool.false_eq_true, if_false]
      refine Reads.bind_finds (parameters_complete hparams hseparated (by simp) hclose ?_ ?_) hend
      · simpa using hlimit
      · omega
  have hbare : (bareDeclaration (statement n) (declaration n) (n + 1)).Finds
      (keyword :: name :: openParen :: (ts ++ closeParen :: openBrace ::
        (pieces.flatMap Piece.whole ++ closeBrace :: rest)))
      (.function name params (pieces.flatMap Piece.trees))
      (errorsAlone eof (pieces.flatMap Piece.segments)) rest := by
    unfold Finds
    rw [bareDeclaration_apply]
    simp only [front, Token.isKeyword_iff.mp hkeyword, take_seqRight_apply]
    exact hfunction
  exact recovering_finds hbare

/-- What begins a statement begins no declaration of another kind. -/
theorem bareDeclaration_of_startsStatement {t : Token} (ht : startsStatement t) (us : List Token)
    (other nested : Rule (Stmt Unit)) (n : Nat) :
    bareDeclaration other nested n (t :: us) = anyStatement other nested n (t :: us) := by
  rw [bareDeclaration_apply, anyStatement_apply]
  unfold startsStatement startsExpression at ht
  simp only [front]
  generalize t.kind = kind at ht
  cases kind with
  | keyword k => cases k <;> first | rfl | simp at ht
  | punct p => cases p <;> rfl
  | _ => rfl

/-- Every interrupted statement is read by the rule of its category. -/
theorem Category.Interrupted.found {c : Category} (heof : eof.isEnd)
    (h : c.Interrupted eof ts us s dangling segments) : c.Found eof us s dangling segments := by
  induction h with
  | none h => exact fun _ _ hn hrest => h.complete hn hrest
  | @statement ts us s dangling segments h ih =>
    intro n rest hn hrest
    obtain ⟨t, vs, rfl, -, hstart⟩ := h.exists_first
    have hfinds := ih hn hrest
    simp only [List.cons_append, List.length_cons] at hn hfinds ⊢
    obtain ⟨n, rfl⟩ : ∃ m, n = m + 1 := Nat.exists_eq_succ_of_ne_zero (by omega)
    have hbare := bareDeclaration_of_startsStatement (hstart rfl) (vs ++ rest)
      (Grammar.statement n) (Grammar.declaration n) (n + 1)
    exact recovering_finds (hbare.trans hfinds)
  | function hkeyword hname hopen hparams hlimit hseparated hclose hopenBrace hdeclarations
      hsegments hcloseBrace ih =>
    exact function_found heof hkeyword hname hopen hparams hlimit hseparated hclose hopenBrace
      hdeclarations ih hsegments hcloseBrace
  | @block openBrace closeBrace pieces hopen hdeclarations hsegments hclose ih =>
    intro n rest hn _
    simp only [List.cons_append, List.append_assoc, List.nil_append, List.length_cons] at hn ⊢
    obtain ⟨n, rfl⟩ : ∃ m, n = m + 1 := Nat.exists_eq_succ_of_ne_zero (by omega)
    have hbody : (Grammar.block (Grammar.declaration n) (n + 1)).Finds
        (pieces.flatMap Piece.whole ++ closeBrace :: rest) (pieces.flatMap Piece.trees)
        (errorsAlone eof (pieces.flatMap Piece.segments)) rest :=
      block_found heof hdeclarations ih hsegments hclose (by omega) (by omega)
    change Grammar.statement (n + 1) _ = _
    rw [Grammar.statement, anyStatement_apply]
    simp only [front, Token.isPunct_iff.mp hopen, take_seqRight_apply]
    exact hbody.bind_reads (reads_pure_iff.mpr ⟨rfl, rfl⟩)
  | ifThen hkeyword hopen hcondition hclose _ ih =>
    exact ifThen_found hkeyword hopen hcondition hclose ih
  | ifElse hkeyword hopen hcondition hclose _ helse _ ihthen ihother =>
    exact ifElse_found hkeyword hopen hcondition hclose ihthen helse ihother
  | «while» hkeyword hopen hcondition hclose _ ih =>
    exact while_found hkeyword hopen hcondition hclose ih
  | «for» hkeyword hopen hfirst hcondition hsemicolon hincrement hclose _ ih =>
    exact for_found hkeyword hopen hfirst hcondition hsemicolon hincrement hclose ih

/-- A program with failing segments in it is read as the program without them, which has no errors,
    and its errors are those that the segments have when each is read alone, in order. -/
theorem errors_isolated (heof : eof.isEnd) (hlast : last.isEnd)
    (h : InterruptedProgram eof ts us ss segments) :
    program (ts ++ [last]) = ⟨ss, [], [last]⟩ ∧
      program (us ++ [last]) =
        ⟨ss, segments.flatMap fun segment => (program (segment ++ [eof])).errors, [last]⟩ := by
  refine ⟨program_complete h.derives hlast, ?_⟩
  obtain ⟨pieces, -, rfl, rfl, rfl, hdeclarations, hsegments⟩ := h
  generalize hn : (pieces.flatMap Piece.whole ++ [last]).length = n
  have hreads : (declarations (declaration n) (fun _ => false) n).Finds
      (pieces.flatMap Piece.whole ++ [last]) (pieces.flatMap Piece.trees)
      (errorsAlone eof (pieces.flatMap Piece.segments)) [last] := by
    refine declarations_found heof (fun clean whole s dangling segments hpiece => ?_) hsegments
      (fun piece hpiece => ?_) ?_ ?_ (Nat.le_of_eq hn) ?_
    · exact (hdeclarations clean whole s dangling segments hpiece).found heof
    · obtain ⟨t, vs, htokens, hend, -, helse⟩ := Piece.exists_first hdeclarations hsegments hpiece
      exact ⟨t, vs, htokens, by simp [hend], helse⟩
    · simpa [front] using hlast
    · rw [← Bool.not_eq_true, front]
      intro helse
      rw [not_isEnd_of_isKeyword helse] at hlast
      cases hlast
    · rw [List.length_append] at hn
      omega
  unfold Finds at hreads
  rw [program, hn, hreads]
  rfl

/-- A variable without a name. -/
def namelessVariable : List Token :=
  [⟨.keyword .var, "var", 1, 2⟩, ⟨.number 1, "1", 1, 6⟩, ⟨.punct .semicolon, ";", 1, 7⟩]

/-- A call without an end. -/
def endlessCall : List Token :=
  [⟨.identifier, "f", 2, 20⟩, ⟨.punct .leftParen, "(", 2, 21⟩, ⟨.punct .semicolon, ";", 2, 22⟩]

/-- A variable without a name is a failing segment. -/
theorem failing_namelessVariable : Failing (.atEnd 1 0) namelessVariable where
  shape := ⟨[⟨.keyword .var, "var", 1, 2⟩], [⟨.number 1, "1", 1, 6⟩], _, rfl, .inr ⟨_, rfl, rfl⟩,
    by simp [Token.isPlain, Token.isPunct, Token.isEnd, Token.startsStatement], rfl⟩
  noElse := rfl
  noTree := rfl

/-- A call that is not closed is a failing segment. -/
theorem failing_endlessCall : Failing (.atEnd 1 0) endlessCall where
  shape := ⟨[], [⟨.identifier, "f", 2, 20⟩, ⟨.punct .leftParen, "(", 2, 21⟩], _, rfl, .inl rfl,
    by simp [Token.isPlain, Token.isPunct, Token.isEnd, Token.startsStatement], rfl⟩
  noElse := rfl
  noTree := rfl

def printing : List Token :=
  [⟨.keyword .print, "print", 1, 9⟩, ⟨.identifier, "x", 1, 15⟩, ⟨.punct .semicolon, ";", 1, 16⟩]

/-- The statement in a block, behind some other tokens. -/
def inBlock (tokens : List Token) : List Token :=
  ⟨.punct .leftBrace, "\x7b", 1, 0⟩ :: (tokens ++ printing ++ [⟨.punct .rightBrace, "\x7d", 1, 18⟩])

theorem printing_derives : Category.declaration.Derives true printing
    (.print (.var () ⟨.identifier, "x", 1, 15⟩)) false := by
  have hvariable : Phrase.primary.Derives [⟨.identifier, "x", 1, 15⟩]
      (.var () ⟨.identifier, "x", 1, 15⟩) := .variable rfl
  have hproduct := Phrase.Derives.operand (t := .product) (.unsigned (.callee hvariable))
  have hcomparison := Phrase.Derives.operand (t := .comparison) (.operand (t := .sum) hproduct)
  have hdisjunction := Phrase.Derives.operand (t := .disjunction)
    (.operand (t := .conjunction) (.operand (t := .equality) hcomparison))
  exact .statement (.print rfl (.disjunction hdisjunction) rfl)

/-- One segment in the block and one behind it. -/
theorem interrupted_inBlock :
    InterruptedProgram (.atEnd 1 0) (inBlock []) (inBlock namelessVariable ++ endlessCall)
      [.block [.print (.var () ⟨.identifier, "x", 1, 15⟩)]] [namelessVariable, endlessCall] := by
  have hblock : Category.statement.Interrupted (.atEnd 1 0) (inBlock []) (inBlock namelessVariable)
      (.block [.print (.var () ⟨.identifier, "x", 1, 15⟩)]) false [namelessVariable] := by
    refine @Category.Interrupted.block _ _ _ [.segment namelessVariable,
      .declaration printing printing (.print (.var () ⟨.identifier, "x", 1, 15⟩)) false []]
      rfl (fun clean whole s dangling segments hpiece => ?_) ?_ rfl
    · simp only [List.mem_cons, reduceCtorEq, false_or, Piece.declaration.injEq, List.not_mem_nil,
        or_false] at hpiece
      obtain ⟨rfl, rfl, rfl, rfl, rfl⟩ := hpiece
      exact .none printing_derives
    · simpa using failing_namelessVariable
  refine ⟨[.declaration (inBlock []) (inBlock namelessVariable) _ false [namelessVariable],
    .segment endlessCall], rfl, rfl, rfl, rfl, fun clean whole s dangling segments hpiece => ?_, ?_⟩
  · simp only [List.mem_cons, reduceCtorEq, or_false, Piece.declaration.injEq, List.not_mem_nil]
      at hpiece
    obtain ⟨rfl, rfl, rfl, rfl, rfl⟩ := hpiece
    exact .statement hblock
  · simpa using failing_endlessCall

/-- Two failing segments, one of them inside a block, leave the print statement and both errors. -/
theorem errors_isolated_inBlock :
    program (inBlock namelessVariable ++ endlessCall ++ [.atEnd 2 23]) =
      ⟨[.block [.print (.var () ⟨.identifier, "x", 1, 15⟩)]],
        [⟨⟨.number 1, "1", 1, 6⟩, .expected .variableName⟩,
          ⟨⟨.punct .semicolon, ";", 2, 22⟩, .expected .expression⟩],
        [.atEnd 2 23]⟩ :=
  (errors_isolated rfl rfl interrupted_inBlock).2

end Grammar

end Lox

import Lox.Proofs.Grammar.Confinement
import Lox.Proofs.Grammar.Program

/-!
The rules for declarations in front of a semicolon, with no brace and no place to resume in between.
Such a rule is given up in front of the semicolon, the same way whatever stands behind it, or it
takes the semicolon and has its tree. `Parted` compares it with itself in front of another rest,
where the second case is known to be the only alternative.
-/

namespace Lox

/-- Neither a brace nor a place at which a declaration can end or reading can resume. -/
def Token.isPlain (t : Token) : Bool :=
  !(t.isPunct .leftBrace || t.isPunct .rightBrace || t.isPunct .semicolon || t.isEnd ||
    t.startsStatement)

theorem Token.isPlain_iff {t : Token} : t.isPlain = true ↔
    t.isPunct .leftBrace = false ∧ t.isPunct .rightBrace = false ∧
      t.isPunct .semicolon = false ∧ t.isEnd = false ∧ t.startsStatement = false := by
  simp only [Token.isPlain, Bool.not_eq_true', Bool.or_eq_false_iff, and_assoc]

/-- The keywords with which a segment may begin. -/
def Token.leads (t : Token) : Bool :=
  t.startsStatement && !t.isKeyword .for

/-- Recovery skips a token that leads a statement. -/
theorem Token.skipped_of_leads {t : Token} (h : t.leads) :
    t.isEnd = false ∧ t.isPunct .semicolon = false ∧ t.isPunct .rightBrace = false := by
  unfold Token.leads Token.startsStatement at h
  unfold Token.isEnd Token.isPunct
  generalize t.kind = kind at h
  cases kind <;> simp_all

namespace Rule

variable {α β : Type} {semicolon : Token} {rest rest' ts : List Token}

theorem bind_pure (r : Rule α) : r >>= pure = r := by
  funext ts
  cases hresult : (r ts).result with
  | none => rw [bind_apply_of_none hresult, ← hresult]
  | some a =>
    rw [bind_apply_of_some hresult, pure_apply, List.append_nil, ← hresult]

theorem take_seqRight_apply (r : Rule α) (t : Token) (us : List Token) :
    (take *> r) (t :: us) = r us := by
  change (take >>= fun _ => r) (t :: us) = r us
  rw [bind_apply_of_some (a := t) rfl]
  rfl

theorem Confined.peek : Confined semicolon rest rest' Rule.peek Rule.peek ts := by
  rw [← bind_pure Rule.peek]
  exact .peek_bind (.pure _)

theorem Confined.expect {test : Token → Bool} (hsemicolon : test semicolon = false) (slot : Slot) :
    Confined semicolon rest rest' (Rule.expect test slot) (Rule.expect test slot) ts := by
  rw [← bind_pure (Rule.expect test slot)]
  exact .expect_bind hsemicolon fun t _ _ _ => .pure t

theorem Confined.accept? {test : Token → Bool} (hsemicolon : test semicolon = false) :
    Confined semicolon rest rest' (Rule.accept? test) (Rule.accept? test) ts := by
  rw [← bind_pure (Rule.accept? test)]
  exact .accept?_bind hsemicolon (.pure none) fun t _ _ _ => .pure (some t)

/-- Both rules are given up in front of the semicolon, or the second takes it and succeeds. -/
def Parted (semicolon : Token) (rest rest' : List Token) (r r' : Rule α) (ts : List Token) : Prop :=
  (∃ errors left, left <:+ ts ∧
    r (ts ++ semicolon :: rest) = ⟨none, errors, left ++ semicolon :: rest⟩ ∧
    r' (ts ++ semicolon :: rest') = ⟨none, errors, left ++ semicolon :: rest'⟩) ∨
  ∃ a errors, r' (ts ++ semicolon :: rest') = ⟨some a, errors, rest'⟩

/-- A confined rule may stand in front of one that parts. -/
theorem Confined.bind_parted {r r' : Rule α} {next next' : α → Rule β}
    (h : Confined semicolon rest rest' r r' ts)
    (hnext : ∀ a left, left <:+ ts → Parted semicolon rest rest' (next a) (next' a) left) :
    Parted semicolon rest rest' (r >>= next) (r' >>= next') ts := by
  obtain ⟨result, errors, left, hleft, hr, hr'⟩ := h
  cases result with
  | none =>
    refine .inl ⟨errors, left, hleft, ?_, ?_⟩
    · rw [bind_apply_of_none (by rw [hr]), hr]
    · rw [bind_apply_of_none (by rw [hr']), hr']
  | some a =>
    obtain ⟨errors', left', hleft', hnext, hnext'⟩ | ⟨b, errors', hnext'⟩ := hnext a left hleft
    · refine .inl ⟨errors ++ errors', left', hleft'.trans hleft, ?_, ?_⟩
      · rw [bind_apply_of_some (a := a) (by rw [hr]), hr, hnext]
      · rw [bind_apply_of_some (a := a) (by rw [hr']), hr', hnext']
    · refine .inr ⟨b, errors ++ errors', ?_⟩
      rw [bind_apply_of_some (a := a) (by rw [hr']), hr', hnext']

namespace Parted

/-- Only what the rules do on the two lists of tokens matters. -/
theorem of_eq {r r' s s' : Rule α} (h : Parted semicolon rest rest' r r' ts)
    (hs : s (ts ++ semicolon :: rest) = r (ts ++ semicolon :: rest))
    (hs' : s' (ts ++ semicolon :: rest') = r' (ts ++ semicolon :: rest')) :
    Parted semicolon rest rest' s s' ts := by
  unfold Parted at h ⊢
  rwa [hs, hs']

theorem ite {c : Prop} [Decidable c] {r r' s s' : Rule α}
    (h : Parted semicolon rest rest' r r' ts) (h' : Parted semicolon rest rest' s s' ts) :
    Parted semicolon rest rest' (if c then r else s) (if c then r' else s') ts := by
  by_cases hc : c
  · simpa only [hc, if_true] using h
  · simpa only [hc, if_false] using h'

/-- What follows a rule that took the semicolon has to succeed without taking more. -/
theorem bind {r r' : Rule α} {next next' : α → Rule β} (h : Parted semicolon rest rest' r r' ts)
    (hnext : ∀ a, ∃ b errors, next' a rest' = ⟨some b, errors, rest'⟩) :
    Parted semicolon rest rest' (r >>= next) (r' >>= next') ts := by
  obtain ⟨errors, left, hleft, hr, hr'⟩ | ⟨a, errors, hr'⟩ := h
  · refine .inl ⟨errors, left, hleft, ?_, ?_⟩
    · rw [bind_apply_of_none (by rw [hr]), hr]
    · rw [bind_apply_of_none (by rw [hr']), hr']
  · obtain ⟨b, errors', hnext⟩ := hnext a
    refine .inr ⟨b, errors ++ errors', ?_⟩
    rw [bind_apply_of_some (a := a) (by rw [hr']), hr', hnext]

/-- A token may be taken first. -/
theorem take_seqRight {r r' : Rule α} (h : Parted semicolon rest rest' r r' ts) (t : Token) :
    Parted semicolon rest rest' (take *> r) (take *> r') (t :: ts) := by
  obtain ⟨errors, left, hleft, hr, hr'⟩ | ⟨a, errors, hr'⟩ := h
  · refine .inl ⟨errors, left, hleft.trans (List.suffix_cons t ts), ?_, ?_⟩
    · rw [List.cons_append, take_seqRight_apply, hr]
    · rw [List.cons_append, take_seqRight_apply, hr']
  · refine .inr ⟨a, errors, ?_⟩
    rw [List.cons_append, take_seqRight_apply, hr']

/-- A statement ends at the semicolon, or is given up in front of another token. -/
theorem expect_semicolon (hsemicolon : semicolon.isPunct .semicolon)
    (hts : ∀ t ∈ ts, t.isPunct .semicolon = false) (slot : Slot) (a : α) :
    Parted semicolon rest rest' (expect (·.isPunct .semicolon) slot >>= fun _ => pure a)
      (expect (·.isPunct .semicolon) slot >>= fun _ => pure a) ts := by
  cases ts with
  | nil =>
    have htake : expect (·.isPunct .semicolon) slot (semicolon :: rest') =
        ⟨some semicolon, [], rest'⟩ := expect_apply_cons hsemicolon slot
    refine .inr ⟨a, [], ?_⟩
    rw [List.nil_append, bind_apply_of_some (a := semicolon) (by rw [htake]), htake]
    rfl
  | cons t us =>
    have hgive (rest : List Token) : expect (·.isPunct .semicolon) slot (t :: us ++ rest) =
        ⟨none, [⟨t, .expected slot⟩], t :: us ++ rest⟩ :=
      expect_apply_of_not (hts t List.mem_cons_self) slot
    refine .inl ⟨[⟨t, .expected slot⟩], t :: us, List.suffix_refl _, ?_, ?_⟩
    · rw [bind_apply_of_none (by rw [hgive]), hgive]
    · rw [bind_apply_of_none (by rw [hgive]), hgive]

/-- A token that is missing is not found. -/
theorem expect_missing {test : Token → Bool} (hsemicolon : test semicolon = false)
    (hts : ∀ t ∈ ts, test t = false) (slot : Slot) (next next' : Token → Rule β) :
    Parted semicolon rest rest' (expect test slot >>= next) (expect test slot >>= next') ts := by
  have htest : test (front (ts ++ [semicolon])) = false := by
    cases ts with
    | nil => exact hsemicolon
    | cons t us => exact hts t List.mem_cons_self
  have hgive (rest : List Token) : expect test slot (ts ++ semicolon :: rest) =
      ⟨none, [⟨front (ts ++ [semicolon]), .expected slot⟩], ts ++ semicolon :: rest⟩ := by
    rw [expect_apply_of_not (by rwa [front_append]), front_append]
  refine .inl ⟨[⟨front (ts ++ [semicolon]), .expected slot⟩], ts, List.suffix_refl _, ?_, ?_⟩
  · rw [bind_apply_of_none (by rw [hgive]), hgive]
  · rw [bind_apply_of_none (by rw [hgive]), hgive]

end Parted

end Rule

namespace Grammar

open Rule

variable {semicolon : Token} {rest rest' ts : List Token} {n n' : Nat}
  {nested nested' other other' : Rule (Stmt Unit)}

theorem confined_optionalExpression (hsemicolon : semicolon.isPunct .semicolon)
    (hn : ts.length < n) (hn' : ts.length < n') (close : Punct) :
    Confined semicolon rest rest' (optionalExpression n close) (optionalExpression n' close) ts :=
  .peek_bind (.ite (.pure none) ((confined_expression hsemicolon hn hn').map some))

/-- An expression statement stops in front of the semicolon or takes it. -/
theorem parted_expressionStatement (hsemicolon : semicolon.isPunct .semicolon)
    (hts : ∀ t ∈ ts, t.isPunct .semicolon = false) (hn : ts.length < n) (hn' : ts.length < n') :
    Parted semicolon rest rest' (expressionStatement n) (expressionStatement n') ts :=
  (confined_expression hsemicolon hn hn').bind_parted fun _ _ hleft =>
    .expect_semicolon hsemicolon (fun t ht => hts t (hleft.subset ht)) _ _

/-- A print statement stops in front of the semicolon or takes it. -/
theorem parted_printStatement (hsemicolon : semicolon.isPunct .semicolon)
    (hts : ∀ t ∈ ts, t.isPunct .semicolon = false) (hn : ts.length < n) (hn' : ts.length < n') :
    Parted semicolon rest rest' (printStatement n) (printStatement n') ts :=
  (confined_expression hsemicolon hn hn').bind_parted fun _ _ hleft =>
    .expect_semicolon hsemicolon (fun t ht => hts t (hleft.subset ht)) _ _

theorem parted_returnStatement (hsemicolon : semicolon.isPunct .semicolon)
    (hts : ∀ t ∈ ts, t.isPunct .semicolon = false) (hn : ts.length < n) (hn' : ts.length < n')
    (keyword : Token) :
    Parted semicolon rest rest' (returnStatement n keyword) (returnStatement n' keyword) ts :=
  (confined_optionalExpression hsemicolon hn hn' .semicolon).bind_parted fun _ _ hleft =>
    .expect_semicolon hsemicolon (fun t ht => hts t (hleft.subset ht)) _ _

theorem isIdentifier_of_semicolon (hsemicolon : semicolon.isPunct .semicolon) :
    semicolon.isIdentifier = false := by
  simp [Token.isIdentifier, Token.isPunct_iff.mp hsemicolon]

/-- A variable declaration stops in front of the semicolon or takes it. -/
theorem parted_varDeclaration (hsemicolon : semicolon.isPunct .semicolon)
    (hts : ∀ t ∈ ts, t.isPunct .semicolon = false) (hn : ts.length < n) (hn' : ts.length < n') :
    Parted semicolon rest rest' (varDeclaration n) (varDeclaration n') ts := by
  refine (Confined.expect (isIdentifier_of_semicolon hsemicolon) _).bind_parted
    fun name us hus => ?_
  have hequal : semicolon.isPunct .equal = false := not_isPunct_of_semicolon hsemicolon (by decide)
  refine (Confined.accept? hequal).bind_parted fun next vs hvs => ?_
  have hwithin := hvs.trans hus
  have hlength := hwithin.length_le
  have hend (initializer : Option (Expr Unit)) (left : List Token) (hleft : left <:+ vs) :
      Parted semicolon rest rest'
        (expect (·.isPunct .semicolon) .endOfVariable >>= fun _ => pure (Stmt.var name initializer))
        (expect (·.isPunct .semicolon) .endOfVariable >>= fun _ => pure (Stmt.var name initializer))
        left :=
    .expect_semicolon hsemicolon (fun t ht => hts t ((hleft.trans hwithin).subset ht)) _ _
  cases next with
  | none => exact (Confined.pure none).bind_parted hend
  | some equals =>
    have hinitializer : Confined semicolon rest rest' (some <$> expression n)
        (some <$> expression n') vs :=
      (confined_expression hsemicolon (by omega) (by omega)).map some
    exact hinitializer.bind_parted hend

/-- Parameters never reach beyond the semicolon. -/
theorem confined_parameters (hsemicolon : semicolon.isPunct .semicolon) (hn : ts.length < n)
    (hn' : ts.length < n') (count : Nat) :
    Confined semicolon rest rest' (parameters n count) (parameters n' count) ts := by
  induction n generalizing n' ts count with
  | zero => omega
  | succ n ih =>
    obtain ⟨n', rfl⟩ : ∃ j, n' = j + 1 := Nat.exists_eq_succ_of_ne_zero (by omega)
    refine .reporting (.expect_bind (isIdentifier_of_semicolon hsemicolon) ?_)
    rintro parameter us rfl -
    refine .accept?_bind (not_isPunct_of_semicolon hsemicolon (by decide)) (.pure _) ?_
    rintro comma vs rfl -
    simp only [List.length_cons] at hn hn'
    have hothers : Confined semicolon rest rest' (parameters n (count + 1))
        (parameters n' (count + 1)) vs := ih (by omega) (by omega) _
    exact hothers.bind fun _ _ _ => .pure _

/-- Without a brace no function gets as far as its body. -/
theorem parted_function (hsemicolon : semicolon.isPunct .semicolon)
    (hts : ∀ t ∈ ts, t.isPunct .leftBrace = false) (hn : ts.length < n) (hn' : ts.length < n') :
    Parted semicolon rest rest' (function nested n) (function nested' n') ts := by
  have hpunct {p : Punct} (hp : p ≠ .semicolon) : semicolon.isPunct p = false :=
    not_isPunct_of_semicolon hsemicolon hp
  refine (Confined.expect (isIdentifier_of_semicolon hsemicolon) _).bind_parted
    fun name us hus => ?_
  have hopen : semicolon.isPunct .leftParen = false := hpunct (by decide)
  refine (Confined.expect hopen _).bind_parted fun _ vs hvs => ?_
  have hwithin := hvs.trans hus
  have hlength := hwithin.length_le
  have hend (params : List Token) (left : List Token) (hleft : left <:+ vs) :
      Parted semicolon rest rest'
        (do
          let _ ← expect (·.isPunct .rightParen) .closeParameters
          let _ ← expect (·.isPunct .leftBrace) .openBody
          let body ← block nested n
          pure (Stmt.function name params body))
        (do
          let _ ← expect (·.isPunct .rightParen) .closeParameters
          let _ ← expect (·.isPunct .leftBrace) .openBody
          let body ← block nested' n'
          pure (Stmt.function name params body)) left := by
    have hclose : semicolon.isPunct .rightParen = false := hpunct (by decide)
    refine (Confined.expect hclose _).bind_parted fun _ ws hws => ?_
    refine .expect_missing (hpunct (by decide)) (fun t ht => hts t ?_) _ _ _
    exact ((hws.trans hleft).trans hwithin).subset ht
  refine Confined.peek.bind_parted fun t ws hws => ?_
  have hlength' := hws.length_le
  have hparams : Confined semicolon rest rest' (parameters n 0) (parameters n' 0) ws :=
    confined_parameters hsemicolon (by omega) (by omega) 0
  refine .ite ((Confined.pure []).bind_parted fun params left hleft => ?_)
    (hparams.bind_parted fun params left hleft => ?_)
  · exact hend params left (hleft.trans hws)
  · exact hend params left (hleft.trans hws)

/-- A condition in parentheses, and what follows it. -/
theorem parted_condition {α : Type} (hsemicolon : semicolon.isPunct .semicolon)
    (hn : ts.length < n) (hn' : ts.length < n') (slot slot' : Slot)
    {next next' : Expr Unit → Rule α}
    (hnext : ∀ e left, left <:+ ts → Parted semicolon rest rest' (next e) (next' e) left) :
    Parted semicolon rest rest'
      (do
        let _ ← expect (·.isPunct .leftParen) slot
        let condition ← expression n
        let _ ← expect (·.isPunct .rightParen) slot'
        next condition)
      (do
        let _ ← expect (·.isPunct .leftParen) slot
        let condition ← expression n'
        let _ ← expect (·.isPunct .rightParen) slot'
        next' condition) ts := by
  have hopen : semicolon.isPunct .leftParen = false :=
    not_isPunct_of_semicolon hsemicolon (by decide)
  have hclose : semicolon.isPunct .rightParen = false :=
    not_isPunct_of_semicolon hsemicolon (by decide)
  refine (Confined.expect hopen _).bind_parted fun _ us hus => ?_
  have hlength := hus.length_le
  have hcondition : Confined semicolon rest rest' (expression n) (expression n') us :=
    confined_expression hsemicolon (by omega) (by omega)
  refine hcondition.bind_parted fun e vs hvs => (Confined.expect hclose _).bind_parted
    fun _ ws hws => hnext e ws ?_
  exact (hws.trans hvs).trans hus

/-- Behind the branch that took the semicolon there is no `else`. -/
theorem parted_ifStatement (hsemicolon : semicolon.isPunct .semicolon)
    (helse : (front rest').isKeyword .else = false) (hn : ts.length < n) (hn' : ts.length < n')
    (hother : ∀ left, left <:+ ts → Parted semicolon rest rest' other other' left) :
    Parted semicolon rest rest' (ifStatement other n) (ifStatement other' n') ts := by
  refine parted_condition hsemicolon hn hn' _ _ fun e left hleft =>
    (hother left hleft).bind fun thenBranch => ?_
  have hnone : accept? (·.isKeyword .else) rest' = ⟨some none, [], rest'⟩ :=
    accept?_apply_of_not helse
  refine ⟨.if e thenBranch none, [], ?_⟩
  rw [bind_apply_of_some (a := none) (by rw [hnone]), hnone]
  rfl

theorem parted_whileStatement (hsemicolon : semicolon.isPunct .semicolon) (hn : ts.length < n)
    (hn' : ts.length < n')
    (hother : ∀ left, left <:+ ts → Parted semicolon rest rest' other other' left) :
    Parted semicolon rest rest' (whileStatement other n) (whileStatement other' n') ts :=
  parted_condition hsemicolon hn hn' _ _ fun e left hleft =>
    (hother left hleft).bind fun body => ⟨.while e body, [], rfl⟩

/-- The token in front decides which statement is read. -/
theorem anyStatement_apply (us : List Token) :
    anyStatement other nested n us =
      match (front us).kind with
      | .keyword .for => (take *> forStatement other n) us
      | .keyword .if => (take *> ifStatement other n) us
      | .keyword .while => (take *> whileStatement other n) us
      | .keyword .return => (take *> returnStatement n (front us)) us
      | .punct .leftBrace => (take *> (.block <$> block nested n)) us
      | .keyword .print => (take *> printStatement n) us
      | _ => expressionStatement n us := by
  rw [anyStatement, bind_apply_of_some (a := front us) rfl]
  simp only [peek]
  generalize (front us).kind = kind
  cases kind with
  | keyword k => cases k <;> rfl
  | punct p => cases p <;> rfl
  | _ => rfl

/-- Without a keyword or a brace in front, a statement is an expression statement. -/
theorem anyStatement_of_plain {us : List Token} (hbrace : (front us).isPunct .leftBrace = false)
    (hstart : (front us).startsStatement = false) :
    anyStatement other nested n us = expressionStatement n us := by
  rw [anyStatement_apply]
  unfold Token.isPunct at hbrace
  unfold Token.startsStatement at hstart
  generalize (front us).kind = kind at hbrace hstart
  cases kind with
  | keyword k => cases k <;> first | rfl | simp at hstart
  | punct p => cases p <;> first | rfl | simp at hbrace
  | _ => rfl

/-- Plain tokens and a semicolon begin with neither a brace nor a keyword. -/
theorem isPlain_front (hsemicolon : semicolon.isPunct .semicolon) (hts : ∀ t ∈ ts, t.isPlain)
    (rest : List Token) : (front (ts ++ semicolon :: rest)).isPunct .leftBrace = false ∧
      (front (ts ++ semicolon :: rest)).startsStatement = false := by
  cases ts with
  | nil =>
    have hkind := Token.isPunct_iff.mp hsemicolon
    exact ⟨not_isPunct_of_semicolon hsemicolon (by decide), by
      simp [Token.startsStatement, front, hkind]⟩
  | cons t us =>
    have hplain := Token.isPlain_iff.mp (hts t List.mem_cons_self)
    exact ⟨hplain.1, hplain.2.2.2.2⟩

theorem parted_anyStatement_of_plain (hsemicolon : semicolon.isPunct .semicolon)
    (hts : ∀ t ∈ ts, t.isPlain) (hn : ts.length < n) (hn' : ts.length < n') :
    Parted semicolon rest rest' (anyStatement other nested n) (anyStatement other' nested' n')
      ts := by
  have hsemicolons : ∀ t ∈ ts, t.isPunct .semicolon = false := fun t ht =>
    (Token.isPlain_iff.mp (hts t ht)).2.2.1
  refine (parted_expressionStatement hsemicolon hsemicolons hn hn').of_eq ?_ ?_
  · obtain ⟨hbrace, hstart⟩ := isPlain_front hsemicolon hts rest
    exact anyStatement_of_plain hbrace hstart
  · obtain ⟨hbrace, hstart⟩ := isPlain_front hsemicolon hts rest'
    exact anyStatement_of_plain hbrace hstart

/-- A statement of plain tokens stops in front of the semicolon or takes it. -/
theorem parted_statement (hsemicolon : semicolon.isPunct .semicolon)
    (hts : ∀ t ∈ ts, t.isPlain) (hn : ts.length < n) (hn' : ts.length < n') :
    Parted semicolon rest rest' (statement n) (statement n') ts := by
  obtain ⟨n, rfl⟩ : ∃ j, n = j + 1 := Nat.exists_eq_succ_of_ne_zero (by omega)
  obtain ⟨n', rfl⟩ : ∃ j, n' = j + 1 := Nat.exists_eq_succ_of_ne_zero (by omega)
  exact parted_anyStatement_of_plain hsemicolon hts hn hn'

/-- A declaration that is not yet recovered from if it is given up. -/
def bareDeclaration (other nested : Rule (Stmt Unit)) (n : Nat) : Rule (Stmt Unit) := do
  match (← peek).kind with
  | .keyword .fun => take *> function nested n
  | .keyword .var => take *> varDeclaration n
  | _ => anyStatement other nested n

/-- The token in front decides which declaration is read. -/
theorem bareDeclaration_apply (us : List Token) :
    bareDeclaration other nested n us =
      match (front us).kind with
      | .keyword .fun => (take *> function nested n) us
      | .keyword .var => (take *> varDeclaration n) us
      | .keyword .for => (take *> forStatement other n) us
      | .keyword .if => (take *> ifStatement other n) us
      | .keyword .while => (take *> whileStatement other n) us
      | .keyword .return => (take *> returnStatement n (front us)) us
      | .punct .leftBrace => (take *> (.block <$> block nested n)) us
      | .keyword .print => (take *> printStatement n) us
      | _ => expressionStatement n us := by
  have hstatement : anyStatement other nested n us = _ := anyStatement_apply us
  rw [bareDeclaration, bind_apply_of_some (a := front us) rfl]
  simp only [peek, List.nil_append]
  generalize (front us).kind = kind at hstatement
  cases kind with
  | keyword k => cases k <;> first | rfl | exact hstatement
  | punct p => cases p <;> exact hstatement
  | _ => exact hstatement

/-- Without a keyword or a brace in front, a declaration is an expression statement. -/
theorem bareDeclaration_of_plain {us : List Token} (hbrace : (front us).isPunct .leftBrace = false)
    (hstart : (front us).startsStatement = false) :
    bareDeclaration other nested n us = expressionStatement n us := by
  rw [bareDeclaration_apply]
  unfold Token.isPunct at hbrace
  unfold Token.startsStatement at hstart
  generalize (front us).kind = kind at hbrace hstart
  cases kind with
  | keyword k => cases k <;> first | rfl | simp at hstart
  | punct p => cases p <;> first | rfl | simp at hbrace
  | _ => rfl

/-- A declaration of plain tokens stops in front of the semicolon or takes it. -/
theorem parted_bareDeclaration_of_plain (hsemicolon : semicolon.isPunct .semicolon)
    (hts : ∀ t ∈ ts, t.isPlain) (hn : ts.length < n) (hn' : ts.length < n') :
    Parted semicolon rest rest' (bareDeclaration other nested n)
      (bareDeclaration other' nested' n') ts := by
  have hsemicolons : ∀ t ∈ ts, t.isPunct .semicolon = false := fun t ht =>
    (Token.isPlain_iff.mp (hts t ht)).2.2.1
  refine (parted_expressionStatement hsemicolon hsemicolons hn hn').of_eq ?_ ?_
  · obtain ⟨hbrace, hstart⟩ := isPlain_front hsemicolon hts rest
    exact bareDeclaration_of_plain hbrace hstart
  · obtain ⟨hbrace, hstart⟩ := isPlain_front hsemicolon hts rest'
    exact bareDeclaration_of_plain hbrace hstart

/-- A segment that begins with one of its keywords. Inside, the bounds are smaller by one. -/
theorem parted_bareDeclaration_of_leads {t : Token} (hsemicolon : semicolon.isPunct .semicolon)
    (ht : t.leads) (hts : ∀ t ∈ ts, t.isPlain) (helse : (front rest').isKeyword .else = false)
    (hn : ts.length < n) (hn' : ts.length < n') :
    Parted semicolon rest rest' (bareDeclaration (statement n) nested (n + 1))
      (bareDeclaration (statement n') nested' (n' + 1)) (t :: ts) := by
  have hsemicolons : ∀ u ∈ ts, u.isPunct .semicolon = false := fun u hu =>
    (Token.isPlain_iff.mp (hts u hu)).2.2.1
  have hbraces : ∀ u ∈ ts, u.isPunct .leftBrace = false := fun u hu =>
    (Token.isPlain_iff.mp (hts u hu)).1
  have hother : ∀ left, left <:+ ts →
      Parted semicolon rest rest' (statement n) (statement n') left := by
    intro left hleft
    have hlength := hleft.length_le
    exact parted_statement hsemicolon (fun u hu => hts u (hleft.subset hu)) (by omega) (by omega)
  have hkeyword {r r' : Rule (Stmt Unit)} (h : Parted semicolon rest rest' r r' ts)
      (hr : ∀ us, bareDeclaration (statement n) nested (n + 1) (t :: us) = (take *> r) (t :: us))
      (hr' : ∀ us, bareDeclaration (statement n') nested' (n' + 1) (t :: us) =
        (take *> r') (t :: us)) :
      Parted semicolon rest rest' (bareDeclaration (statement n) nested (n + 1))
        (bareDeclaration (statement n') nested' (n' + 1)) (t :: ts) :=
    (h.take_seqRight t).of_eq (hr _) (hr' _)
  obtain ⟨k, hkind, hk⟩ : ∃ k, t.kind = .keyword k ∧
      (k = .class ∨ k = .fun ∨ k = .var ∨ k = .if ∨ k = .while ∨ k = .print ∨ k = .return) := by
    unfold Token.leads Token.startsStatement Token.isKeyword at ht
    generalize t.kind = kind at ht
    cases kind with
    | keyword k => cases k <;> simp_all
    | _ => simp at ht
  have hbound : ts.length < n + 1 := Nat.lt_succ_of_lt hn
  have hbound' : ts.length < n' + 1 := Nat.lt_succ_of_lt hn'
  -- the keyword decides the rule, in both places alike
  rcases hk with rfl | rfl | rfl | rfl | rfl | rfl | rfl
  · have hclass : ∀ u ∈ t :: ts, u.isPunct .semicolon = false :=
      List.forall_mem_cons.mpr ⟨by simp [Token.isPunct, hkind], hsemicolons⟩
    have hexpression : Parted semicolon rest rest' (expressionStatement (n + 1))
        (expressionStatement (n' + 1)) (t :: ts) :=
      parted_expressionStatement hsemicolon hclass (Nat.succ_lt_succ hn) (Nat.succ_lt_succ hn')
    exact hexpression.of_eq (by simp only [bareDeclaration_apply, List.cons_append, front, hkind])
      (by simp only [bareDeclaration_apply, List.cons_append, front, hkind])
  · have hfunction : Parted semicolon rest rest' (function nested (n + 1))
        (function nested' (n' + 1)) ts := parted_function hsemicolon hbraces hbound hbound'
    exact hkeyword hfunction (by simp only [bareDeclaration_apply, front, hkind, implies_true])
      (by simp only [bareDeclaration_apply, front, hkind, implies_true])
  · exact hkeyword (parted_varDeclaration hsemicolon hsemicolons hbound hbound')
      (by simp only [bareDeclaration_apply, front, hkind, implies_true])
      (by simp only [bareDeclaration_apply, front, hkind, implies_true])
  · exact hkeyword (parted_ifStatement hsemicolon helse hbound hbound' hother)
      (by simp only [bareDeclaration_apply, front, hkind, implies_true])
      (by simp only [bareDeclaration_apply, front, hkind, implies_true])
  · exact hkeyword (parted_whileStatement hsemicolon hbound hbound' hother)
      (by simp only [bareDeclaration_apply, front, hkind, implies_true])
      (by simp only [bareDeclaration_apply, front, hkind, implies_true])
  · exact hkeyword (parted_printStatement hsemicolon hsemicolons hbound hbound')
      (by simp only [bareDeclaration_apply, front, hkind, implies_true])
      (by simp only [bareDeclaration_apply, front, hkind, implies_true])
  · exact hkeyword (parted_returnStatement hsemicolon hsemicolons hbound hbound' t)
      (by simp only [bareDeclaration_apply, front, hkind, implies_true])
      (by simp only [bareDeclaration_apply, front, hkind, implies_true])

end Grammar

end Lox
